import Cookbook.Proofs.Statement.Boundary
import Cookbook.Proofs.Statement.Covering

/-!
Conditionals and compound statements span what stands in them. Every statement ends where a token does, and
never with a newline; so a conditional or a compound statement, which ends with the last token that was read
for it, ends no earlier than what its bodies hold, whether it was closed or cut. The blocks of commands are
left out: a command whose block was never closed ends before it.

* `TokenSource.StopsAt` says that a token ends at an offset;
* `Statement.Spans` says that a statement spans what stands in its bodies, at any depth;
* `Reading.Spanned` says both of what a call of the parser returns, and `ParserCall.EndsIn.spanned` that
  every call returns such statements;
* `Program.spans_of_mem` is the result for whole files.
-/

namespace Cookbook

/-! ### Ends of tokens -/

namespace TokenSource

variable {src : TokenSource} {x y j : Nat}

/-- The token is one of the file, and no newline. -/
def Carries (src : TokenSource) (t : Token) : Prop := t ∈ src.tokens ∧ t.isNewline = false

/-- A token other than a newline ends at the offset. -/
def StopsAt (src : TokenSource) (offset : Nat) : Prop := ∃ t, src.Carries t ∧ t.stop = offset

theorem Carries.stopsAt {t : Token} (h : src.Carries t) : src.StopsAt t.stop := ⟨t, h, rfl⟩

theorem StopsAt.max (h : src.StopsAt x) (h' : src.StopsAt y) : src.StopsAt (max x y) := by
  rcases le_total x y with hle | hle
  · rwa [max_eq_right hle]
  · rwa [max_eq_left hle]

theorem StopsAt.endBefore (h : src.StopsAt x) (j : Nat) : src.StopsAt (src.endBefore j x) := by
  unfold TokenSource.endBefore
  split
  · rename_i t ht
    have hmem := List.mem_of_mem_take (List.mem_reverse.1 (List.mem_of_find?_eq_some ht))
    exact ⟨t, ⟨hmem, by simpa using List.find?_some ht⟩, rfl⟩
  · exact h

/-- A token that ends by an index ends no later than the last one before the index. -/
theorem StopsAt.le_endBefore (hsrc : src.InOrder) (h : src.StopsAt x) (hend : src.EndsBy x j)
    (fallback : Nat) : x ≤ src.endBefore j fallback := by
  obtain ⟨t, ⟨hmem, hline⟩, rfl⟩ := h
  obtain ⟨i, hi⟩ := List.mem_iff_getElem?.1 hmem
  have hij : i < j := by
    by_contra hle
    have hstart := hend i t (Nat.le_of_not_lt hle) hi
    exact absurd (hsrc.nonempty t hmem) (Nat.not_lt.2 hstart)
  exact (hsrc.endsBy_endBefore hi hline hij fallback).2

theorem Holds.carries {c : Cursor} {t : Token} (hc : src.Holds c) (h : c.rest.head? = some t)
    (hline : t.isNewline = false) : src.Carries t :=
  ⟨List.mem_of_getElem? (hc.getElem? h), hline⟩

end TokenSource

theorem not_isNewline_of_mem_lineRun {stopAtDo : Bool} {last : Option Token} {depth : Nat}
    {tokens : List Token} : ∀ t ∈ (lineRun stopAtDo last depth tokens).1, t.isNewline = false := by
  induction tokens generalizing last depth with
  | nil => exact fun t ht => absurd ht List.not_mem_nil
  | cons u rest ih =>
    intro t ht
    rw [lineRun_cons] at ht
    cases hstep : lineStep stopAtDo last depth u with
    | stop => exact absurd (hstep ▸ ht) List.not_mem_nil
    | close => exact absurd (hstep ▸ ht) List.not_mem_nil
    | skip => exact ih t (hstep ▸ ht)
    | take =>
      rw [hstep] at ht
      rcases List.mem_cons.1 ht with rfl | ht
      · unfold lineStep at hstep
        split at hstep
        · split at hstep <;> exact absurd hstep LineStep.noConfusion
        · split at hstep
          · exact absurd hstep LineStep.noConfusion
          · split at hstep
            · exact absurd hstep LineStep.noConfusion
            · rename_i hline
              simpa using hline
      · exact ih t ht

theorem TokenSource.Holds.line_carries {src : TokenSource} {c : Cursor} (hc : src.Holds c) (stopAtDo : Bool) :
    ∀ t ∈ (c.line stopAtDo).1, src.Carries t := by
  intro t ht
  have hmem : t ∈ c.rest := List.mem_of_mem_take (lineRun_subset_take _ _ _ _ ht)
  rw [show c.rest = src.tokens.drop c.index from hc] at hmem
  exact ⟨List.mem_of_mem_drop hmem, not_isNewline_of_mem_lineRun t ht⟩

/-! ### Ends of commands -/

namespace CommandDraft

variable {src : TokenSource} {d : CommandDraft}

/-- What was read of a command are tokens of the file other than newlines. -/
structure Carried (src : TokenSource) (d : CommandDraft) : Prop where
  head : ∀ t ∈ d.head, src.Carries t
  block : ∀ b ∈ d.block, src.Carries b.opener ∧ ∀ t ∈ b.closer, src.Carries t
  modifier : ∀ m ∈ d.modifier, ∀ t ∈ m.condition, src.Carries t

theorem carried_empty (src : TokenSource) : empty.Carried src where
  head _ ht := absurd ht List.not_mem_nil
  block _ hb := absurd hb (by simp [empty])
  modifier _ hm := absurd hm (by simp [empty])

theorem Carried.stopsAt (h : d.Carried src) {first : Token} (hfirst : src.Carries first) :
    src.StopsAt (d.stop first) := by
  have hhead : src.StopsAt ((d.head.head?.map Token.stop).getD first.stop) := by
    cases hd : d.head with
    | nil => exact hfirst.stopsAt
    | cons t rest => exact (h.head t (hd ▸ List.mem_cons_self)).stopsAt
  have hblock : src.StopsAt (max ((d.block.map fun b => (b.closer.map Token.stop).getD b.opener.stop).getD 0)
      ((d.head.head?.map Token.stop).getD first.stop)) := by
    cases hd : d.block with
    | none => simpa using hhead
    | some b =>
      obtain ⟨hopener, hcloser⟩ := h.block b hd
      refine .max ?_ hhead
      cases hc : b.closer with
      | none => simpa [hc] using hopener.stopsAt
      | some t => simpa [hc] using (hcloser t hc).stopsAt
  unfold stop
  cases hd : d.modifier with
  | none => simpa using hblock
  | some m =>
    cases hc : m.condition.getLast? with
    | none => simpa [hc] using hblock
    | some t =>
      simpa [hc] using hblock.max (h.modifier m hd t (List.mem_of_mem_getLast? hc)).stopsAt

theorem Carried.finish (h : d.Carried src) {first : Token} (hfirst : src.Carries first) (start : Nat)
    (c : Cursor) : src.StopsAt (d.finish src first start c).value.extent.stop := by
  cases hopen : d.openers with
  | nil =>
    rw [finish_nil _ _ _ _ hopen]
    exact h.stopsAt hfirst
  | cons unclosed more =>
    rw [finish_cons _ _ _ _ hopen]
    exact Carried.stopsAt (d := d.cutHead src _)
      ⟨fun t ht => h.head t ((sublist_cutHead src d _).subset ht), h.block, h.modifier⟩ hfirst

theorem Carried.push (h : d.Carried src) {t : Token} (ht : src.Carries t) : (d.push t).Carried src where
  head := by
    intro u hu
    rcases List.mem_cons.1 hu with rfl | hu
    · exact ht
    · exact h.head u hu
  block := h.block
  modifier := h.modifier

theorem Carried.addModifier (h : d.Carried src) (t : Token) {condition : List Token}
    (hcondition : ∀ t ∈ condition, src.Carries t) : (d.addModifier t condition).Carried src where
  head := h.head
  block := h.block
  modifier := by
    intro m hm
    obtain rfl := Option.some.inj hm
    exact hcondition

theorem Carried.addBlock (h : d.Carried src) {b : Block} (hopener : src.Carries b.opener)
    (hcloser : ∀ t ∈ b.closer, src.Carries t) : (d.addBlock b).Carried src := by
  unfold CommandDraft.addBlock
  split
  · refine ⟨h.head, fun b' hb' => ?_, h.modifier⟩
    obtain rfl := Option.some.inj hb'
    exact ⟨hopener, hcloser⟩
  · exact ⟨h.head, h.block, h.modifier⟩

theorem Carried.addRun (h : d.Carried src) {c : Cursor} (hc : src.Holds c) (index : Nat) :
    (d.addRun c index).Carried src where
  head := by
    intro t ht
    rcases List.mem_append.1 ht with ht | ht
    · obtain ⟨hmem, hline⟩ := List.mem_filter.1 (List.mem_reverse.1 ht)
      have hmem := List.mem_of_mem_take hmem
      rw [show c.rest = src.tokens.drop c.index from hc] at hmem
      exact ⟨List.mem_of_mem_drop hmem, by simpa using hline⟩
    · exact h.head t ht
  block := h.block
  modifier := h.modifier

end CommandDraft

/-! ### Statements in statements -/

def Extent.Inside (e outer : Extent) : Prop := outer.start ≤ e.start ∧ e.stop ≤ outer.stop

theorem Extent.Inside.trans {e middle outer : Extent} (h : e.Inside middle) (h' : middle.Inside outer) :
    e.Inside outer := ⟨h'.1.trans h.1, h.2.trans h'.2⟩

mutual

/-- What stands in the branches or the body of the statement lies within it, at any depth; the blocks of
commands are left out. -/
def Statement.Spans : Statement → Prop
  | .command _ => True
  | .conditional ⟨extent, _, _, branches, _, _⟩ => branchesSpanned extent branches
  | .compound ⟨extent, _, body, _, _⟩ => listSpanned extent body

/-- The statements lie within an extent, and what stands in them lies in them. -/
def listSpanned (outer : Extent) : List Statement → Prop
  | [] => True
  | s :: rest => (s.extent.Inside outer ∧ s.Spans) ∧ listSpanned outer rest

def branchesSpanned (outer : Extent) : List Branch → Prop
  | [] => True
  | ⟨_, _, body, _⟩ :: rest => listSpanned outer body ∧ branchesSpanned outer rest

end

theorem Statement.spans_conditional {c : Conditional} :
    (Statement.conditional c).Spans ↔ branchesSpanned c.extent c.branches := by
  obtain ⟨extent, word, subject, branches, opener, closer⟩ := c
  rw [Statement.Spans]

theorem Statement.spans_compound {c : Compound} :
    (Statement.compound c).Spans ↔ listSpanned c.extent c.body := by
  obtain ⟨extent, head, body, opener, closer⟩ := c
  rw [Statement.Spans]

theorem listSpanned_iff {outer : Extent} {body : List Statement} :
    listSpanned outer body ↔ ∀ s ∈ body, s.extent.Inside outer ∧ s.Spans := by
  induction body with
  | nil => simp [listSpanned]
  | cons s rest ih => rw [listSpanned, ih, List.forall_mem_cons]

theorem branchesSpanned_iff {outer : Extent} {branches : List Branch} :
    branchesSpanned outer branches ↔ ∀ b ∈ branches, listSpanned outer b.body := by
  induction branches with
  | nil => simp [branchesSpanned]
  | cons b rest ih =>
    obtain ⟨word, condition, body, start⟩ := b
    rw [branchesSpanned, ih, List.forall_mem_cons]

/-- The statement ends where a token does, and spans what stands in it. -/
structure Statement.Ends (src : TokenSource) (s : Statement) : Prop where
  stopsAt : src.StopsAt s.extent.stop
  spans : s.Spans

section Inside

variable {src : TokenSource} (hsrc : src.InOrder) {i j k m : Nat} {outer : Extent} {fallback : Nat}

include hsrc

/-- What lies after the first token of an extent that ends with the last one before an index lies within
it. -/
theorem listLies.within {body : List Statement} (houter : outer.Lies src i j)
    (hstop : outer.stop = src.endBefore j fallback) (hk : outer.firstIndex ≤ k) (hm : m ≤ j)
    (h : listLies src k m body) (hbody : ∀ s ∈ body, s.Ends src) : listSpanned outer body := by
  refine listSpanned_iff.2 fun s hs => ⟨⟨?_, ?_⟩, (hbody s hs).spans⟩
  · obtain ⟨t, ht, hstart⟩ := houter.first
    obtain ⟨u, hu, hstart'⟩ := (h.mem hs).extent.first
    rw [← hstart, ← hstart']
    exact hsrc.start_le_start ht hu (hk.trans (h.mem hs).extent.lower)
  · rw [hstop]
    exact (hbody s hs).stopsAt.le_endBefore hsrc ((h.mem hs).extent.stop.mono hm) fallback

theorem Statement.spans_conditional_of_lies {c : Conditional}
    (h : (Statement.conditional c).Lies src i j) (hstop : c.extent.stop = src.endBefore j fallback)
    (hbranches : ∀ b ∈ c.branches, ∀ s ∈ b.body, s.Ends src) : (Statement.conditional c).Spans := by
  obtain ⟨hextent, hinside⟩ := Statement.lies_conditional.1 h
  obtain ⟨k, m, hk, hm, hlies⟩ := hinside.inside
  refine Statement.spans_conditional.2 (branchesSpanned_iff.2 fun b hb => ?_)
  exact (hlies.mem hb).within hsrc hextent hstop (hk.trans (Nat.le_succ k)) hm (hbranches b hb)

theorem Statement.spans_compound_of_lies {c : Compound} (h : (Statement.compound c).Lies src i j)
    (hstop : c.extent.stop = src.endBefore j fallback) (hbody : ∀ s ∈ c.body, s.Ends src) :
    (Statement.compound c).Spans := by
  obtain ⟨hextent, hinside⟩ := Statement.lies_compound.1 h
  obtain ⟨k, m, hk, hm, hlies⟩ := hinside.inside
  exact Statement.spans_compound.2 (hlies.within hsrc hextent hstop (hk.trans (Nat.le_succ k)) hm hbody)

end Inside

/-! ### What each call returns -/

/-- The statements that a call returns end where a token does and span what stands in them; a command ends
so if what was read of it are tokens of the file. -/
def Reading.Spanned (src : TokenSource) : Reading → Prop
  | ⟨.statements _ _, p⟩ => ∀ s ∈ p.value, s.Ends src
  | ⟨.statement _ _, p⟩ => p.value.Ends src
  | ⟨.block opener _ _, p⟩ => p.value.opener = opener ∧ ∀ t ∈ p.value.closer, src.Carries t
  | ⟨.branches _ _, p⟩ => ∀ b ∈ p.value.1, ∀ s ∈ b.body, s.Ends src
  | ⟨.conditional opener _, p⟩ => opener.isNewline = false → (Statement.conditional p.value).Ends src
  | ⟨.compound opener _, p⟩ => opener.isNewline = false → (Statement.compound p.value).Ends src
  | ⟨.command first _ d _, p⟩ => src.Carries first → d.Carried src → src.StopsAt p.value.extent.stop

namespace ParserCall

variable {src : TokenSource}

/-- What a call returns is spanned when what the calls that it makes return is, given where it lies. -/
def KeepsSpanned (src : TokenSource) (call : ParserCall) : Prop :=
  (call.script src).Ensures (fun r => r.result.EndsFrom src r.call.floor ∧ r.Spanned src)
    fun p _ => Reading.Laid src ⟨call, p⟩ → Reading.Spanned src ⟨call, p⟩

theorem statements_spanned (stop : Token → Bool) (c : Cursor) : (statements stop c).KeepsSpanned src := by
  unfold KeepsSpanned
  rw [script]
  cases listStep stop c.skipSeparators.rest with
  | done => exact fun _ s hs => absurd hs List.not_mem_nil
  | stray t => exact fun more hmore _ => hmore.2
  | pass => exact fun more hmore _ => hmore.2
  | statement t => exact fun first hfirst more hmore _ => List.forall_mem_cons.2 ⟨hfirst.2, hmore.2⟩

theorem statement_spanned {t : Token} {c : Cursor} (h : (statement t c).Placed src) :
    (statement t c).KeepsSpanned src := by
  obtain ⟨hc, hhead, hstart⟩ := h
  have hline := Token.not_isNewline_of_startsStatement hstart
  have ht := hc.carries hhead hline
  unfold KeepsSpanned
  rw [script]
  split_ifs
  · exact fun p hp _ => hp.2 hline
  · exact fun p hp _ => hp.2 hline
  · exact fun p hp _ => ⟨hp.2 ht (CommandDraft.carried_empty src), trivial⟩

theorem block_spanned (opener : Token) (kind : BlockKind) (c : Cursor) :
    (block opener kind c).KeepsSpanned src := by
  intro body hbody _
  refine ⟨rfl, fun t ht => ?_⟩
  dsimp only at ht
  rcases closeBody_cases src kind.closes opener kind.fault body with ⟨u, hhead, hcloses, he⟩ | ⟨-, he⟩
  · rw [he] at ht
    obtain rfl := Option.some.inj ht
    exact hbody.1.1.carries hhead (BlockKind.not_isNewline_of_closes hcloses)
  · rw [he] at ht
    exact absurd ht (by simp)

theorem branches_spanned (word : ConditionalWord) (c : Cursor) : (branches word c).KeepsSpanned src := by
  unfold KeepsSpanned
  rw [script]
  cases branchStep word c.skipSeparators.rest with
  | done => exact fun _ b hb => absurd hb List.not_mem_nil
  | close t => exact fun _ b hb => absurd hb List.not_mem_nil
  | branch branchWord t => exact fun body hbody more hmore _ => List.forall_mem_cons.2 ⟨hbody.2, hmore.2⟩

/-- A conditional ends with the last token read for it, and spans its branches. -/
theorem closeConditional_ends (hsrc : src.InOrder) {opener : Token} (ht : src.Carries opener) {start i : Nat}
    {line : List Token} {read : Parsed (List Branch × Option Token)}
    (hread : ∀ b ∈ read.value.1, ∀ s ∈ b.body, s.Ends src) :
    let p := closeConditional src opener start line read
    (Statement.conditional p.value).Lies src i p.cursor.index → (Statement.conditional p.value).Ends src := by
  intro p hlies
  have hstop : p.value.extent.stop = src.endBefore p.cursor.index opener.stop := by
    unfold p closeConditional
    split <;> rfl
  have hbranches : ∀ b ∈ p.value.branches, ∀ s ∈ b.body, s.Ends src := by
    unfold p closeConditional
    split
    · exact hread
    · intro b hb s hs
      obtain ⟨b', hb', hsub⟩ := resyncBranches_subset src opener b hb
      exact hread b' hb' s (hsub hs)
  exact ⟨hstop ▸ ht.stopsAt.endBefore _, Statement.spans_conditional_of_lies hsrc hlies hstop hbranches⟩

theorem conditional_spanned (hsrc : src.InOrder) {opener : Token} {c : Cursor}
    (h : (conditional opener c).Placed src) : (conditional opener c).KeepsSpanned src := by
  unfold KeepsSpanned
  rw [script]
  dsimp only
  split_ifs
  · intro read hread hlaid hline
    exact closeConditional_ends hsrc (h.1.carries h.2 hline) hread.2 (hlaid hline)
  · intro body hbody more hmore hlaid hline
    exact closeConditional_ends hsrc (h.1.carries h.2 hline) (List.forall_mem_cons.2 ⟨hbody.2, hmore.2⟩)
      (hlaid hline)

theorem compound_spanned (hsrc : src.InOrder) {opener : Token} {c : Cursor}
    (h : (compound opener c).Placed src) : (compound opener c).KeepsSpanned src := by
  intro body hbody hlaid hline
  have ht := h.1.carries h.2 hline
  refine ⟨ht.stopsAt.endBefore _, Statement.spans_compound_of_lies hsrc (hlaid hline) rfl ?_⟩
  exact fun s hs => hbody.2 s (closeBody_subset src _ _ _ _ hs)

theorem command_spanned {first : Token} {start : Nat} {d : CommandDraft} {c : Cursor} (hc : src.Holds c) :
    (command first start d c).KeepsSpanned src := by
  have htoken : ∀ {t}, (d.step c.rest).token? = some t → src.Carries t := by
    intro t ht
    obtain ⟨⟨rest, hrest⟩, hsep⟩ := CommandDraft.step_token ht
    exact hc.carries (by rw [hrest]; rfl) (Token.not_isNewline_of_not_isSeparator hsep)
  unfold KeepsSpanned
  rw [script]
  cases hstep : d.step c.rest with
  | done => exact fun _ hfirst hd => hd.finish hfirst start c
  | skip => exact fun more hmore _ => hmore.2
  | push t => exact fun more hmore _ hfirst hd => hmore.2 hfirst (hd.push (htoken (hstep ▸ rfl)))
  | modifier t =>
    exact fun _ hfirst hd => (hd.addModifier t (hc.next.line_carries false)).finish hfirst start _
  | conditional t => exact fun nested _ more hmore _ hfirst hd => hmore.2 hfirst (hd.addRun hc _)
  | compound t => exact fun nested _ more hmore _ hfirst hd => hmore.2 hfirst (hd.addRun hc _)
  | block t kind =>
    rintro block ⟨-, hopener, hcloser⟩
    have hadd : d.Carried src → (d.addBlock block.value).Carried src := fun hd =>
      hd.addBlock (by rw [hopener]; exact htoken (hstep ▸ rfl)) hcloser
    dsimp only
    split
    · exact fun more hmore _ hfirst hd => hmore.2 hfirst (hadd hd)
    · exact fun _ hfirst hd => (hadd hd).finish hfirst start _

theorem keepsSpanned (hsrc : src.InOrder) {call : ParserCall} (hp : call.Placed src) :
    call.KeepsSpanned src := by
  cases call with
  | statements stop c => exact statements_spanned stop c
  | statement t c => exact statement_spanned hp
  | block opener kind c => exact block_spanned opener kind c
  | branches word c => exact branches_spanned word c
  | conditional opener c => exact conditional_spanned hsrc hp
  | compound opener c => exact compound_spanned hsrc hp
  | command first start d c => exact command_spanned hp.1

/-- Every call returns statements that end where a token does and span what stands in them. -/
theorem EndsIn.spanned (hsrc : src.InOrder) {call : ParserCall} {p : Parsed call.Result} {log : List Reading}
    (h : call.EndsIn src p log) (hp : call.Placed src) : Reading.Spanned src ⟨call, p⟩ := by
  refine h.induct (P := fun call p => Reading.Spanned src ⟨call, p⟩) ?_ hp
  intro call p log hp h hlog
  have hreadings : ∀ r ∈ log, r.result.EndsFrom src r.call.floor ∧ r.Spanned src :=
    fun r hr => ⟨h.endsFrom_of_mem hp r hr, (hlog r hr).2⟩
  exact h.ensures hreadings (keepsSpanned hsrc hp) (h.laid hsrc hp)

end ParserCall

/-- The statements of a file span what stands in them. -/
theorem Program.spans_of_mem (text : Text) : ∀ s ∈ (Program.ofText text).statements, s.Spans := by
  have hsrc := TokenSource.inOrder_ofText text
  obtain ⟨log, hends⟩ := (TokenSource.ofText text).exists_endsIn_parsed
  rw [Program.statements_ofText]
  intro s hs
  exact (hends.spanned hsrc ((TokenSource.ofText text).holds_cursor 0) s hs).spans

end Cookbook
