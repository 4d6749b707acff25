import Cookbook.Proofs.Statement.Calls
import Cookbook.Proofs.Statement.Prefix

/-!
# The parser terminates

Reading resumes, after something was left open, at a statement or a line that was read before, and it
is read again by the call further out. Still all calls end: those that a call makes are further in.

* `EndsIn.index_le` bounds where a call ends: at most one past the end of the file;
* `Nested.right_of_statement` says where the calls start that a statement leads to;
* `parseStatements_terminates` puts this together for every source and every place in it.
-/

namespace Cookbook

/-! ### How far cursors go -/

namespace TokenSource

variable {src : TokenSource} {c : Cursor}

theorem Holds.index_advance_le (h : src.Holds c) {n : Nat} (hn : n ≤ c.rest.length) :
    (c.advance n).index ≤ max src.size c.index := by
  have hrest : c.rest.length = src.size - c.index := by
    rw [h, List.length_drop, size]
  rw [Cursor.index_advance]
  omega

theorem Holds.index_skipSeparators_le (h : src.Holds c) :
    c.skipSeparators.index ≤ max src.size c.index :=
  h.index_advance_le (List.takeWhile_sublist _).length_le

theorem Holds.index_line_le (h : src.Holds c) (stopAtDo : Bool) :
    (c.line stopAtDo).2.index ≤ max src.size c.index :=
  h.index_advance_le (lineRun_le stopAtDo none 0 c.rest)

/-- Parameters that are never closed end one past the end. -/
theorem Holds.index_params_le (h : src.Holds c) : c.params.2.index ≤ max (src.size + 1) c.index := by
  cases hrest : c.rest with
  | nil =>
    unfold Cursor.params
    rw [hrest]
    exact le_max_right _ _
  | cons t rest =>
    have hlt := h.index_lt hrest
    have hlength : rest.length + 1 + c.index = src.size := by
      have := congrArg List.length h
      rw [hrest, List.length_drop, List.length_cons] at this
      unfold size at hlt ⊢
      omega
    have htake := (List.takeWhile_sublist (l := rest) fun t => !t.isPunct ["|"]).length_le
    unfold Cursor.params
    rw [hrest]
    dsimp only
    split_ifs
    · rw [Cursor.index_next]
      omega
    · rw [Cursor.index_advance]
      omega
    · exact le_max_right _ _

theorem Holds.index_branchHead_le (h : src.Holds c) (branchWord : BranchWord) :
    (Cookbook.branchHead branchWord c).2.index ≤ max src.size c.index := by
  unfold Cookbook.branchHead
  split_ifs
  · exact le_max_right _ _
  · exact h.index_line_le false

/-- Where reading resumes there is a token. -/
theorem resync_lt {opener : Token} {body : List Statement} {index : Nat}
    (h : (src.resync opener body).2 = some index) : index < src.size := by
  obtain ⟨s, hs, rfl⟩ := Option.map_eq_some_iff.1 h
  have hresumes := List.find?_some hs
  unfold resumesAt at hresumes
  split at hresumes
  · rename_i first hfirst
    exact (List.getElem?_eq_some_iff.1 hfirst).1
  · cases hresumes

theorem resyncToken_le (src : TokenSource) (opener : Token) {index : Nat} (h : index ≤ src.size) :
    src.resyncToken opener index ≤ src.size := by
  unfold resyncToken
  dsimp only
  generalize hfind : (List.range' index (src.size - index)).find? _ = found
  cases found with
  | none => exact le_rfl
  | some k =>
    have hk := List.mem_range'_1.1 (List.mem_of_find?_eq_some hfind)
    rw [Option.getD_some]
    omega

end TokenSource

theorem resyncBranches_lt {src : TokenSource} {opener : Token} {branches : List Branch} {index : Nat}
    (h : (resyncBranches src opener branches).2 = some index) : index < src.size := by
  induction branches with
  | nil => cases h
  | cons b more ih =>
    cases more with
    | nil => exact TokenSource.resync_lt h
    | cons b' more => exact ih h

section Ends

variable {src : TokenSource} {i : Nat}

theorem index_cut_le {index : Option Nat} {c : Cursor} (hc : c.index ≤ max (src.size + 1) i)
    (hcut : ∀ j, index = some j → j < src.size) :
    ((index.map src.cursor).getD c).index ≤ max (src.size + 1) i := by
  cases index with
  | none => exact hc
  | some j =>
    have hj := hcut j rfl
    show j ≤ _
    omega

theorem closeBody_index_le {isCloser : Token → Bool} {opener : Token} {fault : Fault}
    {p : Parsed (List Statement)} (hc : src.Holds p.cursor)
    (hp : p.cursor.index ≤ max (src.size + 1) i) :
    (closeBody src isCloser opener fault p).cursor.index ≤ max (src.size + 1) i := by
  rcases closeBody_cases src isCloser opener fault p with ⟨t, hhead, -, h⟩ | ⟨-, h⟩
  · have := ParserCall.index_lt_of_head? hc hhead
    rw [h, Cursor.index_next]
    omega
  · rw [h]
    exact index_cut_le hp fun j => TokenSource.resync_lt

theorem closeConditional_index_le {opener : Token} {start : Nat} {line : List Token}
    {p : Parsed (List Branch × Option Token)} (hp : p.cursor.index ≤ max (src.size + 1) i) :
    (closeConditional src opener start line p).cursor.index ≤ max (src.size + 1) i := by
  unfold closeConditional
  split
  · exact hp
  · exact index_cut_le hp fun j => resyncBranches_lt

theorem CommandDraft.finish_index_le (d : CommandDraft) {first : Token} {start : Nat} {c : Cursor}
    (hstart : start < src.size) (hc : c.index ≤ max (src.size + 1) i) :
    (d.finish src first start c).cursor.index ≤ max (src.size + 1) i := by
  cases hopeners : d.openers with
  | nil =>
    rw [d.finish_nil src first start c hopeners]
    exact hc
  | cons unclosed more =>
    rw [d.finish_cons src first start c hopeners]
    have hle := src.resyncToken_le unclosed (Nat.succ_le_of_lt hstart)
    have hmax : max (src.resyncToken unclosed (start + 1)) (start + 1) ≤ src.size + 1 :=
      max_le (hle.trans (Nat.le_succ _)) (Nat.succ_le_succ hstart.le)
    exact hmax.trans (le_max_left _ _)

end Ends

/-! ### Where calls end -/

def Reading.Bounded (src : TokenSource) (r : Reading) : Prop :=
  r.result.cursor.index ≤ max (src.size + 1) r.call.cursor.index

namespace Reading.Bounded

variable {src : TokenSource} {r : Reading} {i : Nat}

theorem le (h : r.Bounded src) (hi : r.call.cursor.index ≤ max (src.size + 1) i) :
    r.result.cursor.index ≤ max (src.size + 1) i :=
  h.trans (max_le (le_max_left _ _) hi)

end Reading.Bounded

namespace ParserCall

variable {src : TokenSource}

/-- The bound for the calls of a branch, which are a body and the branches after it. -/
theorem branchScript_bounded {i : Nat} {word : ConditionalWord} {branchWord : BranchWord} {t : Token}
    {c : Cursor} (hc : src.Holds c) (hi : c.index ≤ max (src.size + 1) i) :
    (branchScript word branchWord t c).Ensures (fun r => r.result.EndsFrom src r.call.floor ∧ r.Bounded src)
      fun p _ => p.cursor.index ≤ max (src.size + 1) i := by
  have hle := hc.index_branchHead_le branchWord
  intro body hbody more hmore
  have hbody' := hbody.2.le (i := i) (show (branchHead branchWord c).2.index ≤ _ by omega)
  exact hmore.2.le hbody'

theorem next_index_le {t : Token} {rest : List Token} {c : Cursor} (hc : src.Holds c)
    (hrest : c.rest = t :: rest) (i : Nat) : c.next.index ≤ max (src.size + 1) i :=
  (Nat.succ_le_succ (hc.index_lt hrest).le).trans (le_max_left _ _)

theorem statements_bounded {stop : Token → Bool} {c : Cursor} (hc : src.Holds c) :
    (statements stop c).Keeps src (Reading.Bounded src) := by
  have hle := hc.index_skipSeparators_le
  unfold Keeps
  rw [script]
  cases hstep : listStep stop c.skipSeparators.rest with
  | done =>
    show c.skipSeparators.index ≤ max (src.size + 1) c.index
    omega
  | stray t =>
    obtain ⟨u, rest, hrest⟩ := listStep_ne_done hstep (by simp)
    exact fun more hmore => hmore.2.le (next_index_le hc.skipSeparators hrest _)
  | pass =>
    obtain ⟨u, rest, hrest⟩ := listStep_ne_done hstep (by simp)
    exact fun more hmore => hmore.2.le (next_index_le hc.skipSeparators hrest _)
  | statement t =>
    obtain ⟨⟨rest, hrest⟩, -⟩ := listStep_statement hstep
    intro first hfirst more hmore
    have hnext := next_index_le hc.skipSeparators hrest c.index
    exact hmore.2.le (hfirst.2.le ((Nat.le_succ _).trans hnext))

theorem statement_bounded {t : Token} {c : Cursor} : (statement t c).Keeps src (Reading.Bounded src) := by
  unfold Keeps
  rw [script]
  split_ifs <;> exact fun p hp => hp.2.le (le_max_right _ _)

theorem block_bounded {opener : Token} {kind : BlockKind} {c : Cursor} (hc : src.Holds c)
    (ht : c.rest.head? = some opener) : (block opener kind c).Keeps src (Reading.Bounded src) := by
  have hlt := index_lt_of_head? hc ht
  have hle := hc.next.index_params_le
  rw [Cursor.index_next] at hle
  intro body hbody
  exact closeBody_index_le hbody.1.1 (hbody.2.le (show c.next.params.2.index ≤ _ by omega))

theorem branches_bounded {word : ConditionalWord} {c : Cursor} (hc : src.Holds c) :
    (branches word c).Keeps src (Reading.Bounded src) := by
  have hle := hc.index_skipSeparators_le
  unfold Keeps
  rw [script]
  cases hstep : branchStep word c.skipSeparators.rest with
  | done =>
    show c.skipSeparators.index ≤ max (src.size + 1) c.index
    omega
  | close t =>
    obtain ⟨rest, hrest, -⟩ := branchStep_close hstep
    exact next_index_le hc.skipSeparators hrest c.index
  | branch branchWord t =>
    obtain ⟨rest, hrest⟩ := branchStep_branch hstep
    exact branchScript_bounded hc.skipSeparators.next (next_index_le hc.skipSeparators hrest c.index)

theorem conditional_bounded {opener : Token} {c : Cursor} (hc : src.Holds c)
    (ht : c.rest.head? = some opener) : (conditional opener c).Keeps src (Reading.Bounded src) := by
  have hlt := index_lt_of_head? hc ht
  have hnext : c.next.index ≤ max (src.size + 1) c.index := by
    rw [Cursor.index_next]
    omega
  unfold Keeps
  rw [script]
  dsimp only
  split_ifs
  · have hline := hc.next.index_line_le false
    have hskip := (hc.next.line false).index_skipSeparators_le
    exact fun read hread => closeConditional_index_le (hread.2.le (by
      show (c.next.line false).2.skipSeparators.index ≤ _
      omega))
  · intro body hbody more hmore
    have hle := hc.next.index_branchHead_le (firstBranchWord (conditionalWord opener))
    exact closeConditional_index_le (hmore.2.le (hbody.2.le (by
      show (branchHead _ c.next).2.index ≤ _
      omega)))

theorem compound_bounded {opener : Token} {c : Cursor} (hc : src.Holds c)
    (ht : c.rest.head? = some opener) : (compound opener c).Keeps src (Reading.Bounded src) := by
  have hlt := index_lt_of_head? hc ht
  have hle := hc.next.index_line_le (isLoopWord opener.text)
  rw [Cursor.index_next] at hle
  intro body hbody
  exact closeBody_index_le hbody.1.1 (hbody.2.le (by
    show (c.next.line (isLoopWord opener.text)).2.index ≤ _
    omega))

theorem command_bounded {first : Token} {start : Nat} {d : CommandDraft} {c : Cursor}
    (hc : src.Holds c) (hsize : start < src.size) : (command first start d c).Keeps src (Reading.Bounded src) := by
  have hself : c.index ≤ max (src.size + 1) c.index := le_max_right _ _
  unfold Keeps
  rw [script]
  cases hstep : d.step c.rest with
  | done => exact d.finish_index_le hsize hself
  | modifier t =>
    obtain ⟨⟨rest, hrest⟩, -⟩ := CommandDraft.step_token (t := t) (by rw [hstep]; rfl)
    have hlt := hc.index_lt hrest
    have hle := hc.next.index_line_le false
    have hline : (c.next.line false).2.index ≤ max (src.size + 1) c.index := by
      rw [Cursor.index_next] at hle
      omega
    exact CommandDraft.finish_index_le _ hsize hline
  | skip =>
    obtain ⟨t, rest, hrest, -⟩ := CommandDraft.step_skip hstep
    exact fun more hmore => hmore.2.le (next_index_le hc hrest _)
  | push t =>
    obtain ⟨⟨rest, hrest⟩, -⟩ := CommandDraft.step_token (t := t) (by rw [hstep]; rfl)
    exact fun more hmore => hmore.2.le (next_index_le hc hrest _)
  | conditional t => exact fun nested hnested more hmore => hmore.2.le (hnested.2.le hself)
  | compound t => exact fun nested hnested more hmore => hmore.2.le (hnested.2.le hself)
  | block t kind =>
    intro block hblock
    dsimp only
    split
    · exact fun more hmore => hmore.2.le (hblock.2.le hself)
    · exact CommandDraft.finish_index_le _ hsize (hblock.2.le hself)

theorem keeps_bounded {call : ParserCall} (hp : call.Placed src) : call.Keeps src (Reading.Bounded src) := by
  cases call with
  | statements stop c => exact statements_bounded hp
  | statement t c => exact statement_bounded
  | block opener kind c => exact block_bounded hp.1 hp.2
  | branches word c => exact branches_bounded hp
  | conditional opener c => exact conditional_bounded hp.1 hp.2
  | compound opener c => exact compound_bounded hp.1 hp.2
  | command first start d c => exact command_bounded hp.1 hp.2.2

/-- A call ends at most one past the end of the file. -/
theorem EndsIn.index_le {call : ParserCall} {p : Parsed call.Result} {log : List Reading}
    (h : call.EndsIn src p log) (hp : call.Placed src) :
    p.cursor.index ≤ max (src.size + 1) call.cursor.index :=
  h.satisfies (P := Reading.Bounded src) (fun _ hp => keeps_bounded hp) hp

/-! ### Calls within a statement -/

/-- The call reads a statement, or a list of them; a call that does not is about the token at which it
starts. -/
def ReadsStatements : ParserCall → Prop
  | statements _ _ => True
  | branches _ _ => True
  | statement _ _ => True
  | _ => False

/-- Within a statement, all that is read starts no further left, and all statements start right of its
first token: at the token itself only what is lower in rank is left to call. -/
theorem Nested.right_of_statement {r : Reading} {t : Token} {c : Cursor} (h : (statement t c).Nested src r)
    (hp : (statement t c).Placed src) :
    c.index ≤ r.call.cursor.index ∧ (r.call.ReadsStatements → c.index < r.call.cursor.index) := by
  have habove := h.above hp
  refine ⟨habove.index_le, fun hreads => lt_of_le_of_ne habove.index_le fun hsame => ?_⟩
  have hrank : 3 ≤ r.call.rank := by
    revert hreads
    cases r.call <;> simp [ReadsStatements, rank]
  have hneed : 6 * src.left r.call.cursor.index + r.call.rank < 6 * src.left c.index + 3 :=
    habove.need_lt
  rw [← hsame] at hneed
  omega

end ParserCall

open ParserCall in
/-- The parser terminates on every source from every place in it, and with enough fuel its result is the
one in which the calls end. All calls that it leads to end; a statement ends right of its first token
and at most one past the end of the file, and all statements read within it start right of its first
token. -/
theorem parseStatements_terminates (src : TokenSource) (stop : Token → Bool) (index : Nat) :
    ∃ p log, (statements stop (src.cursor index)).EndsIn src p log ∧
      (∀ fuel, 6 * src.left index + 4 ≤ fuel →
        parseStatements src fuel stop (src.cursor index) = p) ∧
      ∀ r, (statements stop (src.cursor index)).Nested src r →
        (∃ inner, r.call.EndsIn src r.result inner) ∧
        ∀ t c, r.call = statement t c →
          c.index < r.result.cursor.index ∧ r.result.cursor.index ≤ src.size + 1 ∧
          ∀ s, r.call.Nested src s → c.index ≤ s.call.cursor.index ∧
            (s.call.ReadsStatements → c.index < s.call.cursor.index) := by
  have hp : (statements stop (src.cursor index)).Placed src := src.holds_cursor index
  have hends := ends hp (Nat.le_succ _)
  refine ⟨_, _, hends, fun fuel hfuel => ?_, fun r hr => ⟨hr.ends, ?_⟩⟩
  · obtain ⟨n, rfl⟩ : ∃ n, fuel = n + 1 := ⟨fuel - 1, by omega⟩
    exact (hends.eq_run hp hfuel).1.symm
  · obtain ⟨call, result⟩ := r
    rintro t c rfl
    have hplaced := (hr.above hp).placed
    obtain ⟨inner, hin⟩ := hr.ends
    have hle : result.cursor.index ≤ max (src.size + 1) c.index := hin.index_le hplaced
    have hlt := index_lt_of_head? hplaced.1 hplaced.2.1
    refine ⟨(hin.endsFrom hplaced).2, ?_, fun s hs => hs.right_of_statement hplaced⟩
    show result.cursor.index ≤ src.size + 1
    omega

end Cookbook
