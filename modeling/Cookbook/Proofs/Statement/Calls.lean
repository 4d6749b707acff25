import Cookbook.Proofs.Statement.Progress

/-!
# The calls of the parser

The parser as a system of calls that ask for further calls, without fuel. A call is a script: a result,
or a request for the result of another call and what to do with it.

* `ParserCall.script` is the parser's code with its calls as requests, and `ParserCall.run_succ` says
  that the parser with fuel answers the requests with one unit less;
* `Script.Performs` says that all calls a script leads to end, and records those that it makes itself
  with their results;
* `ParserCall.ends` says that each call made at a token of the source ends, and `Script.Performs.unique`
  that it ends in one way;
* `EndsIn.induct` is the induction along the calls that a call leads to, and `EndsIn.satisfies` its form
  for properties that each call keeps: `ParserCall.Keeps` says this of one call;
* `ParserCall.Nested` are the calls that a call leads to.
-/

namespace Cookbook

/-! ### What is left of a source -/

namespace TokenSource

variable {src : TokenSource} {c : Cursor}

/-- The number of tokens from an index on, counting the end of the file as one. -/
def left (src : TokenSource) (index : Nat) : Nat := src.size + 1 - index

theorem Holds.index_lt {t : Token} {rest : List Token} (h : src.Holds c) (hrest : c.rest = t :: rest) :
    c.index < src.size := by
  unfold Holds at h
  rw [hrest] at h
  have := congrArg List.length h
  simp only [List.length_cons, List.length_drop] at this
  unfold size
  omega

theorem left_anti (src : TokenSource) {i j : Nat} (hij : i ≤ j) : src.left j ≤ src.left i := by
  unfold left
  omega

theorem left_lt {i j : Nat} (hi : i < src.size) (hij : i + 1 ≤ j) : src.left j + 1 ≤ src.left i := by
  unfold left
  omega

end TokenSource

/-! ### Calls -/

/-- A call of one of the functions of the parser. -/
inductive ParserCall where
  | statements (stop : Token → Bool) (c : Cursor)
  | statement (t : Token) (c : Cursor)
  | block (opener : Token) (kind : BlockKind) (c : Cursor)
  | branches (word : ConditionalWord) (c : Cursor)
  | conditional (opener : Token) (c : Cursor)
  | compound (opener : Token) (c : Cursor)
  | command (first : Token) (start : Nat) (d : CommandDraft) (c : Cursor)

namespace ParserCall

abbrev Result : ParserCall → Type
  | statements _ _ => List Statement
  | statement _ _ => Statement
  | block _ _ _ => Block
  | branches _ _ => List Branch × Option Token
  | conditional _ _ => Conditional
  | compound _ _ => Compound
  | command _ _ _ _ => Command

def cursor : ParserCall → Cursor
  | statements _ c => c
  | statement _ c => c
  | block _ _ c => c
  | branches _ c => c
  | conditional _ c => c
  | compound _ c => c
  | command _ _ _ c => c

def run (src : TokenSource) (fuel : Nat) : (call : ParserCall) → Parsed call.Result
  | statements stop c => parseStatements src fuel stop c
  | statement t c => parseStatement src fuel t c
  | block opener kind c => parseBlock src fuel opener kind c
  | branches word c => parseBranches src fuel word c
  | conditional opener c => parseConditional src fuel opener c
  | compound opener c => parseCompound src fuel opener c
  | command first start d c => parseCommand src fuel first start d c

end ParserCall

/-! ### Scripts -/

/-- What a call does: it ends with a result, or asks for another call and goes on with its result. -/
inductive Script (α : Type) where
  | done (p : Parsed α)
  | ask (call : ParserCall) (next : Parsed call.Result → Script α)

/-- A call with its result. -/
structure Reading where
  call : ParserCall
  result : Parsed call.Result

namespace Script

variable {α : Type}

/-- The result of a script whose requests are answered by a function. -/
def answer (f : (call : ParserCall) → Parsed call.Result) : Script α → Parsed α
  | done p => p
  | ask call next => (next (f call)).answer f

/-- The calls that a script makes when its requests are answered by a function. -/
def log (f : (call : ParserCall) → Parsed call.Result) : Script α → List Reading
  | done _ => []
  | ask call next => ⟨call, f call⟩ :: (next (f call)).log f

/-- Whatever the calls return that a script makes, as long as `Q` holds of them, `P` holds in the end of
its result and of its calls. -/
def Ensures (Q : Reading → Prop) (P : Parsed α → List Reading → Prop) : Script α → Prop
  | done p => P p []
  | ask call next => ∀ q, Q ⟨call, q⟩ → (next q).Ensures Q fun p log => P p (⟨call, q⟩ :: log)

end Script

namespace ParserCall

/-- The branch whose word `t` stands before the cursor, and the branches after it. -/
def branchScript (word : ConditionalWord) (branchWord : BranchWord) (t : Token) (c : Cursor) :
    Script (List Branch × Option Token) :=
  let head := branchHead branchWord c
  .ask (.statements (branchStop word branchWord) head.2) fun body =>
    .ask (.branches word body.cursor) fun more =>
      .done ⟨(⟨branchWord, head.1, body.value, t.start⟩ :: more.value.1, more.value.2), more.cursor,
        body.problems ++ more.problems⟩

def script (src : TokenSource) : (call : ParserCall) → Script call.Result
  | statements stop c =>
    match listStep stop c.skipSeparators.rest with
    | .done => .done ⟨[], c.skipSeparators, []⟩
    | .stray t =>
      .ask (.statements stop c.skipSeparators.next) fun more =>
        .done (more.after [⟨.strayCloser t.text, t.start⟩])
    | .pass => .ask (.statements stop c.skipSeparators.next) .done
    | .statement t =>
      .ask (.statement t c.skipSeparators) fun first =>
        .ask (.statements stop first.cursor) fun more =>
          .done ⟨first.value :: more.value, more.cursor, first.problems ++ more.problems⟩
  | statement t c =>
    if t.isKeyword ["if", "unless", "case"] then
      .ask (.conditional t c) fun p => .done (p.map .conditional)
    else if t.isKeyword compoundWords then .ask (.compound t c) fun p => .done (p.map .compound)
    else .ask (.command t c.index .empty c) fun p => .done (p.map .command)
  | block opener kind c =>
    .ask (.statements kind.closes c.next.params.2) fun body =>
      let b := closeBody src kind.closes opener kind.fault body
      .done ⟨⟨kind, opener, b.closer, c.next.params.1, b.body⟩, b.cursor, b.problems⟩
  | branches word c =>
    match branchStep word c.skipSeparators.rest with
    | .done => .done ⟨([], none), c.skipSeparators, []⟩
    | .branch branchWord t => branchScript word branchWord t c.skipSeparators.next
    | .close t => .done ⟨([], some t), c.skipSeparators.next, []⟩
  | conditional opener c =>
    let close := closeConditional src opener c.index (c.next.line false).1
    if conditionalWord opener = .caseOf then
      .ask (.branches .caseOf (c.next.line false).2.skipSeparators) fun read => .done (close read)
    else
      let word := conditionalWord opener
      let head := branchHead (firstBranchWord word) c.next
      .ask (.statements (branchStop word (firstBranchWord word)) head.2) fun body =>
        .ask (.branches word body.cursor) fun more =>
          .done (close ⟨(⟨firstBranchWord word, head.1, body.value, opener.start⟩ :: more.value.1,
            more.value.2), more.cursor, body.problems ++ more.problems⟩)
  | compound opener c =>
    let line := c.next.line (isLoopWord opener.text)
    .ask (.statements (·.isKeyword ["end"]) line.2) fun body =>
      let b := closeBody src (·.isKeyword ["end"]) opener (.openKeyword opener.text) body
      .done ⟨⟨⟨opener.start, src.endBefore b.cursor.index opener.stop, c.index⟩, line.1, b.body, opener,
        b.closer⟩, b.cursor, b.problems⟩
  | command first start d c =>
    match d.step c.rest with
    | .done => .done (d.finish src first start c)
    | .skip => .ask (.command first start d c.next) .done
    | .block t kind =>
      .ask (.block t kind c) fun block =>
        match block.value.closer with
        | some _ =>
          .ask (.command first start (d.addBlock block.value) block.cursor) fun more =>
            .done (more.after block.problems)
        | none =>
          .done (((d.addBlock block.value).finish src first start block.cursor).after block.problems)
    | .conditional t =>
      .ask (.conditional t c) fun nested =>
        .ask (.command first start (d.addRun c nested.cursor.index) nested.cursor) fun more =>
          .done (more.after nested.problems)
    | .compound t =>
      .ask (.compound t c) fun nested =>
        .ask (.command first start (d.addRun c nested.cursor.index) nested.cursor) fun more =>
          .done (more.after nested.problems)
    | .modifier t =>
      .done ((d.addModifier t (c.next.line false).1).finish src first start (c.next.line false).2)
    | .push t => .ask (.command first start (d.push t) c.next) .done

variable (src : TokenSource)

/-- With fuel left a call is its script, the requests answered with one unit less. -/
theorem run_succ (fuel : Nat) (call : ParserCall) :
    call.run src (fuel + 1) = (call.script src).answer (run src fuel) := by
  cases call with
  | statements stop c =>
    show parseStatements src (fuel + 1) stop c = _
    rw [parseStatements_succ, script]
    cases listStep stop c.skipSeparators.rest <;> rfl
  | statement t c =>
    show parseStatement src (fuel + 1) t c = _
    rw [parseStatement_succ, script]
    split_ifs <;> rfl
  | block opener kind c =>
    show parseBlock src (fuel + 1) opener kind c = _
    rw [parseBlock_succ]
    rfl
  | branches word c =>
    show parseBranches src (fuel + 1) word c = _
    rw [parseBranches_succ, script]
    cases branchStep word c.skipSeparators.rest <;> rfl
  | conditional opener c =>
    show parseConditional src (fuel + 1) opener c = _
    rw [parseConditional_succ, script]
    unfold parseAllBranches
    split_ifs <;> rfl
  | compound opener c =>
    show parseCompound src (fuel + 1) opener c = _
    rw [parseCompound_succ]
    rfl
  | command first start d c =>
    show parseCommand src (fuel + 1) first start d c = _
    rw [parseCommand_succ, script]
    cases d.step c.rest with
    | block t kind =>
      show parseAfterBlock src fuel first start d (parseBlock src fuel t kind c) = Script.answer _
        (match (parseBlock src fuel t kind c).value.closer with | some _ => _ | none => _)
      unfold parseAfterBlock
      cases (parseBlock src fuel t kind c).value.closer <;> rfl
    | _ => rfl

end ParserCall

/-! ### Calls that end -/

/-- A script ends with a result, and so do all calls that it leads to. The list has the calls that it
makes itself, in order, with their results. -/
inductive Script.Performs (src : TokenSource) :
    {α : Type} → Script α → Parsed α → List Reading → Prop
  | done {α : Type} (p : Parsed α) : Performs src (.done p) p []
  | ask {α : Type} {call : ParserCall} {next : Parsed call.Result → Script α} {q : Parsed call.Result}
      {inner log : List Reading} {p : Parsed α} :
      Performs src (call.script src) q inner → Performs src (next q) p log →
        Performs src (.ask call next) p (⟨call, q⟩ :: log)

namespace ParserCall

/-- A call ends with a result, making the given calls. -/
def EndsIn (src : TokenSource) (call : ParserCall) (p : Parsed call.Result) (log : List Reading) :
    Prop :=
  (call.script src).Performs src p log

end ParserCall

namespace Script.Performs

variable {src : TokenSource} {α : Type} {p : Parsed α} {log : List Reading}

theorem done_iff {q : Parsed α} : (Script.done q).Performs src p log ↔ p = q ∧ log = [] := by
  constructor
  · intro h
    cases h
    exact ⟨rfl, rfl⟩
  · rintro ⟨rfl, rfl⟩
    exact .done p

theorem ask_iff {call : ParserCall} {next : Parsed call.Result → Script α} :
    (Script.ask call next).Performs src p log ↔
      ∃ q inner rest, call.EndsIn src q inner ∧ (next q).Performs src p rest ∧
        log = ⟨call, q⟩ :: rest := by
  constructor
  · intro h
    cases h with
    | ask hcall hnext => exact ⟨_, _, _, hcall, hnext, rfl⟩
  · rintro ⟨q, inner, rest, hcall, hnext, rfl⟩
    exact .ask hcall hnext

/-- What a script ensures holds of the way it ends. -/
theorem ensures {Q : Reading → Prop} {P : Parsed α → List Reading → Prop} {s : Script α}
    (h : s.Performs src p log) (hlog : ∀ r ∈ log, Q r) (hs : s.Ensures Q P) : P p log := by
  induction h with
  | done p => exact hs
  | ask hcall hnext _ ih =>
    exact ih (fun r hr => hlog r (List.mem_cons_of_mem _ hr)) (hs _ (hlog _ List.mem_cons_self))

/-- A script ends in one way. -/
theorem unique {s : Script α} {q : Parsed α} {log' : List Reading} (hp : s.Performs src p log)
    (hq : s.Performs src q log') : p = q ∧ log = log' := by
  induction hp generalizing log' with
  | done p =>
    obtain ⟨rfl, rfl⟩ := done_iff.1 hq
    exact ⟨rfl, rfl⟩
  | ask hcall hnext ihcall ihnext =>
    obtain ⟨r, inner, rest, hcall', hnext', rfl⟩ := ask_iff.1 hq
    obtain ⟨rfl, -⟩ := ihcall hcall'
    obtain ⟨rfl, rfl⟩ := ihnext hnext'
    exact ⟨rfl, rfl⟩

end Script.Performs

namespace ParserCall

variable {src : TokenSource}

/-! ### Every call ends -/

/-- The call starts at a token of the source that it can take. -/
def Placed (src : TokenSource) : ParserCall → Prop
  | statements _ c => src.Holds c
  | statement t c => src.Holds c ∧ c.rest.head? = some t ∧ t.startsStatement = true
  | block opener _ c => src.Holds c ∧ c.rest.head? = some opener
  | branches _ c => src.Holds c
  | conditional opener c => src.Holds c ∧ c.rest.head? = some opener
  | compound opener c => src.Holds c ∧ c.rest.head? = some opener
  | command _ start _ c => src.Holds c ∧ start ≤ c.index ∧ start < src.size

/-- Calls that start at one token, in the order in which they are made: a list, a statement of it, a
command that the statement is, and what the token opens. -/
def rank : ParserCall → Nat
  | statements _ _ => 4
  | branches _ _ => 4
  | statement _ _ => 3
  | command _ _ _ _ => 2
  | _ => 1

/-- The measure that falls from a call to the calls it makes: what is left of the source comes before
the rank. -/
def need (src : TokenSource) (call : ParserCall) : Nat :=
  6 * src.left call.cursor.index + call.rank

theorem rank_pos (call : ParserCall) : 0 < call.rank := by
  cases call <;> simp [rank]

/-- A call further in: at a token it can take, no further left, and lower in the measure. -/
structure Above (src : TokenSource) (x y : ParserCall) : Prop where
  placed : y.Placed src
  need_lt : y.need src < x.need src
  index_le : x.cursor.index ≤ y.cursor.index

theorem Above.trans {x y z : ParserCall} (hxy : x.Above src y) (hyz : y.Above src z) : x.Above src z :=
  ⟨hyz.placed, hyz.need_lt.trans hxy.need_lt, hxy.index_le.trans hyz.index_le⟩

theorem Above.of_lt {x y : ParserCall} (hx : x.cursor.index < src.size) (hy : y.Placed src)
    (hlt : x.cursor.index < y.cursor.index) : x.Above src y := by
  refine ⟨hy, ?_, hlt.le⟩
  have hleft := TokenSource.left_lt hx hlt
  have hrank : y.rank ≤ 4 := by cases y <;> simp [rank]
  have := x.rank_pos
  unfold need
  omega

/-- A call at the same token that is lower in rank is further in. -/
theorem Above.of_rank {x y : ParserCall} (hy : y.Placed src)
    (hle : x.cursor.index ≤ y.cursor.index) (hrank : y.rank < x.rank) : x.Above src y := by
  refine ⟨hy, ?_, hle⟩
  have := src.left_anti hle
  unfold need
  omega

section Descent

variable {fuel : Nat}

theorem index_lt_of_head? {c : Cursor} {t : Token} (hc : src.Holds c) (ht : c.rest.head? = some t) :
    c.index < src.size := by
  obtain ⟨rest, hrest⟩ := List.head?_eq_some_iff.1 ht
  exact hc.index_lt hrest

theorem above_statements {stop : Token → Bool} {c : Cursor} (h : (statements stop c).Placed src)
    (hf : (statements stop c).need src ≤ fuel + 1) :
    ∀ r ∈ ((statements stop c).script src).log (run src fuel), (statements stop c).Above src r.call := by
  have hc : src.Holds c := h
  have hs := hc.skipSeparators
  have hle := c.le_index_skipSeparators
  -- a list goes on only while there are tokens
  have hmore : c.skipSeparators.index < src.size → ∀ c' : Cursor, src.Holds c' →
      c.skipSeparators.index < c'.index → (statements stop c).Above src (statements stop c') :=
    fun hlt c' hc' hlt' => .of_lt (hle.trans_lt hlt) hc' (hle.trans_lt hlt')
  rw [script]
  cases hstep : listStep stop c.skipSeparators.rest with
  | done => simp [Script.log]
  | stray t =>
    obtain ⟨u, rest, hrest⟩ := listStep_ne_done hstep (by simp)
    simpa [Script.log] using hmore (hs.index_lt hrest) _ hs.next (Nat.lt_succ_self _)
  | pass =>
    obtain ⟨u, rest, hrest⟩ := listStep_ne_done hstep (by simp)
    simpa [Script.log] using hmore (hs.index_lt hrest) _ hs.next (Nat.lt_succ_self _)
  | statement t =>
    obtain ⟨rest, hrest, hstart⟩ := c.startsStatement_of_listStep hstep
    have hhead : c.skipSeparators.rest.head? = some t := by rw [hrest]; rfl
    have hleft := src.left_anti hle
    have hlt := hs.index_lt hrest
    obtain ⟨k, rfl⟩ : ∃ k, fuel = k + 2 := by
      have hone : 1 ≤ src.left c.skipSeparators.index := by unfold TokenSource.left; omega
      unfold need at hf
      exact ⟨fuel - 2, by simp only [cursor, rank] at hf; omega⟩
    have hfirst : (statements stop c).Above src (statement t c.skipSeparators) :=
      .of_rank ⟨hs, hhead, hstart⟩ hle (by simp [rank])
    have hadv := parseStatement_lt k hs hhead hstart
    have hend := ((progress src (k + 2)).statement t _ hs).1.1
    simpa [Script.log] using ⟨hfirst, hmore hlt _ hend hadv⟩

theorem above_statement {t : Token} {c : Cursor} (h : (statement t c).Placed src) :
    ∀ r ∈ ((statement t c).script src).log (run src fuel), (statement t c).Above src r.call := by
  obtain ⟨hc, ht, hstart⟩ := h
  have hlt := index_lt_of_head? hc ht
  rw [script]
  split_ifs
  · have : (statement t c).Above src (conditional t c) := .of_rank ⟨hc, ht⟩ le_rfl (by simp [rank])
    simpa [Script.log] using this
  · have : (statement t c).Above src (compound t c) := .of_rank ⟨hc, ht⟩ le_rfl (by simp [rank])
    simpa [Script.log] using this
  · have : (statement t c).Above src (command t c.index .empty c) :=
      .of_rank ⟨hc, le_rfl, hlt⟩ le_rfl (by simp [rank])
    simpa [Script.log] using this

theorem above_block {opener : Token} {kind : BlockKind} {c : Cursor}
    (h : (block opener kind c).Placed src) :
    ∀ r ∈ ((block opener kind c).script src).log (run src fuel),
      (block opener kind c).Above src r.call := by
  obtain ⟨hc, ht⟩ := h
  have : (block opener kind c).Above src (statements kind.closes c.next.params.2) :=
    .of_lt (index_lt_of_head? hc ht) hc.next.params c.next.le_index_params
  rw [script]
  simpa [Script.log] using this

theorem above_branch {x : ParserCall} {word : ConditionalWord} {branchWord : BranchWord} {t : Token}
    {c : Cursor} (hx : x.cursor.index < src.size) (hc : src.Holds c) (hlt : x.cursor.index < c.index) :
    ∀ r ∈ (branchScript word branchWord t c).log (run src fuel), x.Above src r.call := by
  have hle := c.le_index_branchHead branchWord
  have hhead := hc.branchHead branchWord
  have hend := ((progress src fuel).statements (branchStop word branchWord) _ hhead).1
  have hbody : x.Above src (statements (branchStop word branchWord) (branchHead branchWord c).2) :=
    .of_lt hx hhead (hlt.trans_le hle)
  have hmore : x.Above src (branches word
      (parseStatements src fuel (branchStop word branchWord) (branchHead branchWord c).2).cursor) :=
    .of_lt hx hend.1 (hlt.trans_le (hle.trans hend.2))
  simpa [branchScript, Script.log] using ⟨hbody, hmore⟩

theorem above_branches {word : ConditionalWord} {c : Cursor} (h : (branches word c).Placed src) :
    ∀ r ∈ ((branches word c).script src).log (run src fuel), (branches word c).Above src r.call := by
  have hc : src.Holds c := h
  have hle := c.le_index_skipSeparators
  rw [script]
  cases hstep : branchStep word c.skipSeparators.rest with
  | done => simp [Script.log]
  | close t => simp [Script.log]
  | branch branchWord t =>
    obtain ⟨u, rest, hrest⟩ := branchStep_ne_done hstep (by simp)
    have hlt := hc.skipSeparators.index_lt hrest
    exact above_branch (hle.trans_lt hlt) hc.skipSeparators.next (Nat.lt_succ_of_le hle)

theorem above_conditional {opener : Token} {c : Cursor} (h : (conditional opener c).Placed src) :
    ∀ r ∈ ((conditional opener c).script src).log (run src fuel),
      (conditional opener c).Above src r.call := by
  obtain ⟨hc, ht⟩ := h
  have hlt := index_lt_of_head? hc ht
  rw [script]
  dsimp only
  split_ifs
  · have hle : c.next.index ≤ (c.next.line false).2.skipSeparators.index :=
      (c.next.le_index_line false).trans (Cursor.le_index_skipSeparators _)
    have : (conditional opener c).Above src (branches .caseOf (c.next.line false).2.skipSeparators) :=
      .of_lt hlt (hc.next.line false).skipSeparators hle
    simpa [Script.log] using this
  · have habove : ∀ r ∈ (branchScript (conditionalWord opener) (firstBranchWord (conditionalWord opener))
        opener c.next).log (run src fuel), (conditional opener c).Above src r.call :=
      above_branch hlt hc.next (Nat.lt_succ_self _)
    simpa [branchScript, Script.log] using habove

theorem above_compound {opener : Token} {c : Cursor} (h : (compound opener c).Placed src) :
    ∀ r ∈ ((compound opener c).script src).log (run src fuel),
      (compound opener c).Above src r.call := by
  obtain ⟨hc, ht⟩ := h
  have : (compound opener c).Above src
      (statements (·.isKeyword ["end"]) (c.next.line (isLoopWord opener.text)).2) :=
    .of_lt (index_lt_of_head? hc ht) (hc.next.line _) (c.next.le_index_line _)
  rw [script]
  simpa [Script.log] using this

theorem above_command {first : Token} {start : Nat} {d : CommandDraft} {c : Cursor}
    (h : (command first start d c).Placed src) :
    ∀ r ∈ ((command first start d c).script src).log (run src fuel),
      (command first start d c).Above src r.call := by
  obtain ⟨hc, hstart, hsize⟩ := h
  -- the command goes on to the right of a token
  have hgo : c.index < src.size → ∀ d' (c' : Cursor), src.Holds c' → c.index < c'.index →
      (command first start d c).Above src (command first start d' c') :=
    fun hlt d' c' hc' hlt' => .of_lt hlt ⟨hc', hstart.trans hlt'.le, hsize⟩ hlt'
  rw [script]
  cases hstep : d.step c.rest with
  | done => simp [Script.log]
  | modifier t => simp [Script.log]
  | skip =>
    obtain ⟨t, rest, hrest, -⟩ := CommandDraft.step_skip hstep
    simpa [Script.log] using hgo (hc.index_lt hrest) d _ hc.next (Nat.lt_succ_self _)
  | push t =>
    obtain ⟨⟨rest, hrest⟩, -⟩ := CommandDraft.step_token (t := t) (by rw [hstep]; rfl)
    simpa [Script.log] using hgo (hc.index_lt hrest) (d.push t) _ hc.next (Nat.lt_succ_self _)
  | conditional t =>
    obtain ⟨⟨rest, hrest⟩, -⟩ := CommandDraft.step_token (t := t) (by rw [hstep]; rfl)
    have hend := ((progress src fuel).conditional t c hc).1
    have hnested : (command first start d c).Above src (conditional t c) :=
      .of_rank ⟨hc, by rw [hrest]; rfl⟩ le_rfl (by simp [rank])
    simpa [Script.log] using ⟨hnested, hgo (hc.index_lt hrest) _ _ hend.1 hend.2⟩
  | compound t =>
    obtain ⟨⟨rest, hrest⟩, -⟩ := CommandDraft.step_token (t := t) (by rw [hstep]; rfl)
    have hend := ((progress src fuel).compound t c hc).1
    have hnested : (command first start d c).Above src (compound t c) :=
      .of_rank ⟨hc, by rw [hrest]; rfl⟩ le_rfl (by simp [rank])
    simpa [Script.log] using ⟨hnested, hgo (hc.index_lt hrest) _ _ hend.1 hend.2⟩
  | block t kind =>
    obtain ⟨⟨rest, hrest⟩, -⟩ := CommandDraft.step_token (t := t) (by rw [hstep]; rfl)
    have hend := (progress src fuel).block t kind c hc
    have hnested : (command first start d c).Above src (block t kind c) :=
      .of_rank ⟨hc, by rw [hrest]; rfl⟩ le_rfl (by simp [rank])
    intro r hr
    obtain rfl | hr := List.mem_cons.1 hr
    · exact hnested
    · dsimp only at hr
      split at hr
      · obtain rfl : r = _ := by simpa [Script.log] using hr
        exact hgo (hc.index_lt hrest) _ _ hend.1 hend.2
      · simp [Script.log] at hr

theorem above_of_mem_log {call : ParserCall} (h : call.Placed src) (hf : call.need src ≤ fuel + 1) :
    ∀ r ∈ (call.script src).log (run src fuel), call.Above src r.call := by
  cases call with
  | statements stop c => exact above_statements h hf
  | statement t c => exact above_statement h
  | block opener kind c => exact above_block h
  | branches word c => exact above_branches h
  | conditional opener c => exact above_conditional h
  | compound opener c => exact above_compound h
  | command first start d c => exact above_command h

end Descent

end ParserCall

/-- A script whose requests are answered by calls that end, ends with that answer. -/
theorem Script.performs_answer {src : TokenSource} {f : (call : ParserCall) → Parsed call.Result}
    {α : Type} {s : Script α}
    (h : ∀ r ∈ s.log f, ∃ inner, r.call.EndsIn src (f r.call) inner) :
    s.Performs src (s.answer f) (s.log f) := by
  induction s with
  | done p => exact .done p
  | ask call next ih =>
    obtain ⟨inner, hcall⟩ := h ⟨call, f call⟩ List.mem_cons_self
    exact .ask hcall (ih (f call) fun r hr => h r (List.mem_cons_of_mem _ hr))

namespace ParserCall

variable {src : TokenSource} {call : ParserCall}

/-- A call at a token it can take ends, with the result that the parser has with enough fuel. -/
theorem ends {fuel : Nat} (h : call.Placed src) (hf : call.need src ≤ fuel + 1) :
    call.EndsIn src (call.run src (fuel + 1)) ((call.script src).log (run src fuel)) := by
  induction fuel generalizing call with
  | zero =>
    have hnone : ∀ r ∈ (call.script src).log (run src 0), False := by
      intro r hr
      have hlt := (above_of_mem_log h hf r hr).need_lt
      have := r.call.rank_pos
      unfold need at hlt hf
      omega
    rw [run_succ]
    exact Script.performs_answer fun r hr => (hnone r hr).elim
  | succ fuel ih =>
    rw [run_succ]
    refine Script.performs_answer fun r hr => ?_
    have habove := above_of_mem_log h hf r hr
    have hlt := habove.need_lt
    exact ⟨_, ih habove.placed (by omega)⟩

/-- The result and the calls of a call that ends are those of the parser with enough fuel. -/
theorem EndsIn.eq_run {p : Parsed call.Result} {log : List Reading} {fuel : Nat}
    (h : call.EndsIn src p log) (hp : call.Placed src) (hf : call.need src ≤ fuel + 1) :
    p = call.run src (fuel + 1) ∧ log = (call.script src).log (run src fuel) :=
  h.unique (ends hp hf)

/-- The calls that a call makes are further in. -/
theorem EndsIn.above {p : Parsed call.Result} {log : List Reading} (h : call.EndsIn src p log)
    (hp : call.Placed src) : ∀ r ∈ log, call.Above src r.call := by
  have hf : call.need src ≤ call.need src + 1 := Nat.le_succ _
  rw [(h.eq_run hp hf).2]
  exact above_of_mem_log hp hf

theorem Placed.holds (h : call.Placed src) : src.Holds call.cursor := by
  cases call with
  | statements | branches => exact h
  | statement | block | conditional | compound | command => exact h.1

/-- The leftmost index at which a call may end: where it starts, or behind its first token if it takes
that; but a command of which a part is read may go back up to its second token. -/
def floor : ParserCall → Nat
  | statements _ c => c.index
  | branches _ c => c.index
  | command _ start _ c => min (start + 1) c.index
  | call => call.cursor.index + 1

/-- A call that ends leaves a cursor of the source, no further left than it may go. -/
theorem EndsIn.endsFrom {p : Parsed call.Result} {log : List Reading} (h : call.EndsIn src p log)
    (hp : call.Placed src) : p.EndsFrom src call.floor := by
  have hc := hp.holds
  have hprogress := progress src (call.need src + 2)
  obtain ⟨rfl, -⟩ := h.eq_run hp (by omega : call.need src ≤ call.need src + 1 + 1)
  cases call with
  | statements stop c => exact (hprogress.statements stop c hc).1
  | statement t c => exact ⟨(hprogress.statement t c hc).1.1, parseStatement_lt _ hc hp.2.1 hp.2.2⟩
  | block opener kind c => exact hprogress.block opener kind c hc
  | branches word c => exact (hprogress.branches word c hc).1
  | conditional opener c => exact (hprogress.conditional opener c hc).1
  | compound opener c => exact (hprogress.compound opener c hc).1
  | command first start d c =>
    exact (hprogress.command first start d c _ hc (min_le_right _ _) (min_le_left _ _)).1

theorem EndsIn.made {p : Parsed call.Result} {log : List Reading} (h : call.EndsIn src p log) :
    ∀ r ∈ log, ∃ inner, r.call.EndsIn src r.result inner := by
  suffices hall : ∀ {α : Type} {s : Script α} {p : Parsed α} {log : List Reading},
      s.Performs src p log → ∀ r ∈ log, ∃ inner, r.call.EndsIn src r.result inner from hall h
  intro α s p log h
  induction h with
  | done => simp
  | ask hcall _ _ ih =>
    intro r hr
    obtain rfl | hr := List.mem_cons.1 hr
    · exact ⟨_, hcall⟩
    · exact ih r hr

/-- The calls that a call makes end where they may. -/
theorem EndsIn.endsFrom_of_mem {p : Parsed call.Result} {log : List Reading} (h : call.EndsIn src p log)
    (hp : call.Placed src) : ∀ r ∈ log, r.result.EndsFrom src r.call.floor := by
  intro r hr
  obtain ⟨inner, hin⟩ := h.made r hr
  exact hin.endsFrom (h.above hp r hr).placed

/-- What holds of a call whenever it holds of the calls it makes, which are further in, holds of every
call that ends. -/
theorem EndsIn.induct {P : (call : ParserCall) → Parsed call.Result → Prop}
    (step : ∀ (call : ParserCall) p log, call.Placed src → call.EndsIn src p log →
      (∀ r ∈ log, call.Above src r.call ∧ P r.call r.result) → P call p)
    {p : Parsed call.Result} {log : List Reading} (h : call.EndsIn src p log)
    (hp : call.Placed src) : P call p := by
  induction hn : call.need src using Nat.strong_induction_on generalizing call log with
  | _ n ih =>
    subst hn
    refine step call p log hp h fun r hr => ?_
    have habove := h.above hp r hr
    obtain ⟨inner, hin⟩ := h.made r hr
    exact ⟨habove, ih _ habove.need_lt hin habove.placed rfl⟩

/-- A call keeps a property of readings: its result has it, whatever the calls that it makes return, as
long as these have it and end where they may. -/
def Keeps (src : TokenSource) (P : Reading → Prop) (call : ParserCall) : Prop :=
  (call.script src).Ensures (fun r => r.result.EndsFrom src r.call.floor ∧ P r) fun p _ => P ⟨call, p⟩

/-- What every call keeps holds of every call that ends. -/
theorem EndsIn.satisfies {P : Reading → Prop} (hkeeps : ∀ call : ParserCall, call.Placed src → call.Keeps src P)
    {p : Parsed call.Result} {log : List Reading} (h : call.EndsIn src p log) (hp : call.Placed src) :
    P ⟨call, p⟩ := by
  refine h.induct (P := fun call p => P ⟨call, p⟩) ?_ hp
  intro call p log hp h hlog
  exact h.ensures (fun r hr => ⟨h.endsFrom_of_mem hp r hr, (hlog r hr).2⟩) (hkeeps call hp)

/-! ### Calls further in -/

/-- A reading that a call makes, or that is made further in. -/
inductive Nested (src : TokenSource) (call : ParserCall) : Reading → Prop
  | made {p : Parsed call.Result} {log : List Reading} {r : Reading} :
      call.EndsIn src p log → r ∈ log → Nested src call r
  | within {r s : Reading} {log : List Reading} :
      Nested src call r → r.call.EndsIn src r.result log → s ∈ log → Nested src call s

section Nested

variable {r s : Reading}

theorem Nested.ends (h : call.Nested src r) : ∃ log, r.call.EndsIn src r.result log := by
  cases h with
  | made h hr => exact h.made r hr
  | within _ h hr => exact h.made r hr

theorem Nested.above (h : call.Nested src r) (hp : call.Placed src) : call.Above src r.call := by
  induction h with
  | made h hr => exact h.above hp _ hr
  | within _ h hr ih => exact ih.trans (h.above ih.placed _ hr)

theorem Nested.trans (hr : call.Nested src r) (hs : r.call.Nested src s) : call.Nested src s := by
  obtain ⟨inner, hin⟩ := hr.ends
  induction hs with
  | made h hs =>
    obtain ⟨rfl, -⟩ := hin.unique h
    exact .within hr h hs
  | within _ h hs ih => exact .within ih h hs

/-- What a call leads to are the calls that it makes and what they lead to. -/
theorem EndsIn.nested_iff {p : Parsed call.Result} {log : List Reading} (h : call.EndsIn src p log) :
    call.Nested src s ↔ ∃ r ∈ log, s = r ∨ r.call.Nested src s := by
  constructor
  · intro hs
    induction hs with
    | made h' hs =>
      obtain ⟨-, rfl⟩ := h.unique h'
      exact ⟨_, hs, .inl rfl⟩
    | within _ h' hs ih =>
      obtain ⟨r, hr, rfl | hnested⟩ := ih
      · exact ⟨_, hr, .inr (.made h' hs)⟩
      · exact ⟨r, hr, .inr (.within hnested h' hs)⟩
  · rintro ⟨r, hr, rfl | hnested⟩
    · exact .made h hr
    · exact (Nested.made h hr).trans hnested

end Nested

end ParserCall

end Cookbook
