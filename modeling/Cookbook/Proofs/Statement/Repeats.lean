import Cookbook.Diagnostic.Finding
import Cookbook.Proofs.Statement.Calls
import Cookbook.Proofs.Statement.Layout
import Cookbook.Proofs.Token.Faults
import Mathlib.Data.List.Nodup

/-!
# Problems that are reported again

When something was left open, reading resumes further left, and the call further out reads again what
lies from there on. The problems that were met there before stay on the list, so they may be reported
again.

* `ParserCall.MayReport` are the places that a call may report, and `EndsIn.located` says that it reports
  no others;
* `Report` says what a call adds itself to the problems of the calls that it makes: at most one, at a
  place that none of them may report;
* `Reading.GivesBack` are the problems at places that a call leaves to the next one, and
  `reportedOnce_ofText_iff` says that a file has a problem twice exactly when one of these is met again.
-/

namespace Cookbook

/-! ### Codes and places of problems -/

/-- What tells a problem from others: its reason code and its offset. -/
def Problem.entry (p : Problem) : ReasonCode × Nat := ((Finding.broken p.fault).code, p.offset)

/-- No two problems have the same code and offset. -/
def ReportedOnce (problems : List Problem) : Prop := (problems.map Problem.entry).Nodup

instance (problems : List Problem) : Decidable (ReportedOnce problems) :=
  inferInstanceAs (Decidable (List.Nodup _))

/-- Literals and structure have different codes. -/
theorem Fault.code_ne_code {f g : Fault} (hf : f.IsOfLiteral) (hg : ¬ g.IsOfLiteral) :
    (Finding.broken f).code ≠ (Finding.broken g).code := by
  cases f <;> cases g <;> simp_all [Fault.IsOfLiteral, Finding.code]

/-- The problem is at token `k` of the source. -/
def Problem.LiesAt (src : TokenSource) (e : Problem) (k : Nat) : Prop :=
  ∃ t, src.tokens[k]? = some t ∧ t.start = e.offset

namespace TokenSource.InOrder

variable {src : TokenSource} (hsrc : src.InOrder)

include hsrc

theorem index_eq {i j : Nat} {t u : Token} (ht : src.tokens[i]? = some t)
    (hu : src.tokens[j]? = some u) (h : t.start = u.start) : i = j := by
  rcases Nat.lt_trichotomy i j with hlt | rfl | hlt
  · have := hsrc.start_lt_stop ht
    have := hsrc.stop_le_start ht hu hlt
    omega
  · rfl
  · have := hsrc.start_lt_stop hu
    have := hsrc.stop_le_start hu ht hlt
    omega

/-- Problems with one entry are at one token. -/
theorem index_eq_of_entry {e e' : Problem} {k k' : Nat} (he : e.LiesAt src k)
    (he' : e'.LiesAt src k') (h : e.entry = e'.entry) : k = k' := by
  obtain ⟨t, ht, hstart⟩ := he
  obtain ⟨u, hu, hstart'⟩ := he'
  have hoffset : e.offset = e'.offset := (Prod.mk.inj h).2
  exact hsrc.index_eq ht hu (by rw [hstart, hstart', hoffset])

end TokenSource.InOrder

/-! ### What a call may report -/

namespace ParserCall

/-- The brackets that a call has open already. -/
def openers : ParserCall → List Token
  | command _ _ d _ => d.openers
  | _ => []

/-- The brackets that a call has open lie before its cursor. -/
def Settled (src : TokenSource) (call : ParserCall) : Prop :=
  ∀ o ∈ call.openers, ∃ k, k < call.cursor.index ∧ src.tokens[k]? = some o

/-- A place that a call may report: from its cursor on, or a bracket that it has open. -/
def MayReport (src : TokenSource) (call : ParserCall) (k : Nat) : Prop :=
  call.cursor.index ≤ k ∨ ∃ o ∈ call.openers, src.tokens[k]? = some o

/-- What a call reports, of which `own` is not reported by the calls that it makes. -/
structure Report (src : TokenSource) (call : ParserCall) (problems : List Problem)
    (log : List Reading) (own : List Problem) : Prop where
  perm : problems.Perm (own ++ log.flatMap (·.result.problems))
  single : own.length ≤ 1
  own : ∀ e ∈ own, ¬ e.fault.IsOfLiteral ∧ ∃ k, e.LiesAt src k ∧ call.MayReport src k ∧
    ∀ r ∈ log, ¬ r.call.MayReport src k
  settled : ∀ r ∈ log, r.call.Settled src
  within : ∀ r ∈ log, ∀ k, r.call.MayReport src k → call.MayReport src k
  apart : log.Pairwise fun x y => ∀ k, x.call.MayReport src k → y.call.MayReport src k →
    x.result.cursor.index ≤ k

variable {src : TokenSource} {call : ParserCall}

/-! What a call reports is put together from a few forms. -/

theorem settled_of_openers (h : call.openers = []) : call.Settled src := by
  intro o ho
  rw [h] at ho
  cases ho

theorem mayReport_iff_of_openers (h : call.openers = []) {k : Nat} :
    call.MayReport src k ↔ call.cursor.index ≤ k := by
  simp [MayReport, h]

theorem Report.nothing : call.Report src [] [] [] where
  perm := by simp
  single := Nat.zero_le _
  own := by simp
  settled := by simp
  within := by simp
  apart := .nil

theorem Report.one {r : Reading} (hsettled : r.call.Settled src)
    (hwithin : ∀ k, r.call.MayReport src k → call.MayReport src k) :
    call.Report src r.result.problems [r] [] where
  perm := by simp
  single := Nat.zero_le _
  own := by simp
  settled := by simpa using hsettled
  within := by simpa using hwithin
  apart := List.pairwise_singleton _ _

theorem Report.one_plain {r : Reading} (hr : r.call.openers = []) (habove : call.Above src r.call) :
    call.Report src r.result.problems [r] [] :=
  .one (settled_of_openers hr) fun _ hk =>
    .inl (habove.index_le.trans ((mayReport_iff_of_openers hr).1 hk))

/-- Two calls are made, the second no further left than the first ended. -/
theorem Report.two {x y : Reading} (hx : x.call.openers = []) (habove : call.Above src x.call)
    (hsettled : y.call.Settled src)
    (hwithin : ∀ k, y.call.MayReport src k → call.MayReport src k)
    (hapart : ∀ k, x.call.cursor.index ≤ k → y.call.MayReport src k → x.result.cursor.index ≤ k) :
    call.Report src (x.result.problems ++ y.result.problems) [x, y] [] where
  perm := by simp
  single := Nat.zero_le _
  own := by simp
  settled := by simpa using ⟨settled_of_openers hx, hsettled⟩
  within := by
    simp only [List.mem_cons, List.not_mem_nil, or_false, forall_eq_or_imp, forall_eq]
    exact ⟨fun k hk => .inl (habove.index_le.trans ((mayReport_iff_of_openers hx).1 hk)), hwithin⟩
  apart := by
    refine List.pairwise_pair.2 fun k hk => hapart k ((mayReport_iff_of_openers hx).1 hk)

theorem Report.two_plain {x y : Reading} (hx : x.call.openers = []) (hy : y.call.openers = [])
    (hxabove : call.Above src x.call) (hyabove : call.Above src y.call)
    (hnext : y.call.cursor = x.result.cursor) :
    call.Report src (x.result.problems ++ y.result.problems) [x, y] [] := by
  refine .two hx hxabove (settled_of_openers hy) (fun k hk => ?_) fun k _ hk => ?_
  · exact .inl (hyabove.index_le.trans ((mayReport_iff_of_openers hy).1 hk))
  · rw [← hnext]
    exact (mayReport_iff_of_openers hy).1 hk

/-- A problem of the call itself, at a place that the calls that it makes may not report. -/
theorem Report.add {problems : List Problem} {log : List Reading} {e : Problem} {k : Nat}
    (h : call.Report src problems log []) (he : ¬ e.fault.IsOfLiteral) (hlies : e.LiesAt src k)
    (hk : call.MayReport src k) (hlog : ∀ r ∈ log, ¬ r.call.MayReport src k) {all : List Problem}
    (hall : all.Perm (e :: problems)) : call.Report src all log [e] where
  perm := hall.trans (h.perm.cons e)
  single := le_rfl
  own := by
    intro e' he'
    obtain rfl := List.mem_singleton.1 he'
    exact ⟨he, k, hlies, hk, hlog⟩
  settled := h.settled
  within := h.within
  apart := h.apart

end ParserCall

/-! ### One step of a call -/

theorem closeBody_problems (src : TokenSource) (isCloser : Token → Bool) (opener : Token) (fault : Fault)
    (p : Parsed (List Statement)) :
    (closeBody src isCloser opener fault p).problems = p.problems ∨
      (closeBody src isCloser opener fault p).problems = p.problems ++ [⟨fault, opener.start⟩] := by
  rcases closeBody_cases src isCloser opener fault p with ⟨t, -, -, h⟩ | ⟨-, h⟩
  · exact .inl (by rw [h])
  · exact .inr (by rw [h])

theorem closeConditional_problems (src : TokenSource) (opener : Token) (start : Nat) (line : List Token)
    (read : Parsed (List Branch × Option Token)) :
    (closeConditional src opener start line read).problems = read.problems ∨
      (closeConditional src opener start line read).problems =
        read.problems ++ [⟨.openKeyword opener.text, opener.start⟩] := by
  unfold closeConditional
  split
  · exact .inl rfl
  · exact .inr rfl

namespace CommandDraft

theorem finish_problems (src : TokenSource) (d : CommandDraft) (first : Token) (start : Nat)
    (c : Cursor) :
    (d.finish src first start c).problems = [] ∨
      ∃ o ∈ d.openers, (d.finish src first start c).problems = [⟨.openBracket o.text, o.start⟩] := by
  cases hopeners : d.openers with
  | nil => exact .inl (by rw [d.finish_nil src first start c hopeners])
  | cons o more =>
    exact .inr ⟨o, List.mem_cons_self, by rw [d.finish_cons src first start c hopeners]⟩

theorem mem_openers_push {d : CommandDraft} {t o : Token} (h : o ∈ (d.push t).openers) :
    o = t ∨ o ∈ d.openers := by
  unfold push at h
  dsimp only at h
  split_ifs at h
  · exact List.mem_cons.1 h
  · exact .inr (List.mem_of_mem_tail h)
  · exact .inr h

end CommandDraft

namespace ParserCall

variable {src : TokenSource} {call : ParserCall}

theorem getElem?_of_head? {c : Cursor} {t : Token} (hc : src.Holds c) (ht : c.rest.head? = some t) :
    src.tokens[c.index]? = some t := by
  rw [← ht, hc, List.head?_drop]

/-- What is known of the calls that a script makes: they are further in, and do not go back too far. -/
def Forward (src : TokenSource) (call : ParserCall) (r : Reading) : Prop :=
  call.Above src r.call ∧ r.call.floor ≤ r.result.cursor.index

section Steps

/-- What the script of a call reports, when the calls it makes go forward. -/
def Reports (src : TokenSource) (call : ParserCall) {α : Type} (s : Script α) : Prop :=
  s.Ensures (Forward src call) fun p log => ∃ own, call.Report src p.problems log own

theorem statements_reports {stop : Token → Bool} {c : Cursor} (hc : src.Holds c) :
    Reports src (statements stop c) ((statements stop c).script src) := by
  have hle := c.le_index_skipSeparators
  rw [script]
  cases hstep : listStep stop c.skipSeparators.rest with
  | done => exact ⟨_, .nothing⟩
  | pass => exact fun more hmore => ⟨_, .one_plain rfl hmore.1⟩
  | stray t =>
    obtain ⟨u, rest, hrest⟩ := listStep_ne_done hstep (by simp)
    obtain rfl : u = t := by
      rw [hrest] at hstep
      unfold listStep at hstep
      dsimp only at hstep
      split_ifs at hstep
      exact ListStep.stray.inj hstep
    intro more hmore
    have ht : src.tokens[c.skipSeparators.index]? = some u :=
      getElem?_of_head? hc.skipSeparators (by rw [hrest]; rfl)
    refine ⟨_, (Report.one_plain rfl hmore.1).add (k := c.skipSeparators.index)
      (e := ⟨.strayCloser u.text, u.start⟩) (by simp [Fault.IsOfLiteral]) ⟨u, ht, rfl⟩ (.inl hle) ?_
      (List.Perm.refl _)⟩
    intro r hr hk
    obtain rfl := List.mem_singleton.1 hr
    have : c.skipSeparators.next.index ≤ c.skipSeparators.index := (mayReport_iff_of_openers rfl).1 hk
    exact absurd this (by simp)
  | statement t =>
    exact fun first hfirst more hmore => ⟨_, .two_plain rfl rfl hfirst.1 hmore.1 rfl⟩

theorem statement_reports {t : Token} {c : Cursor} :
    Reports src (statement t c) ((statement t c).script src) := by
  rw [script]
  split_ifs <;> exact fun p hp => ⟨_, .one_plain rfl hp.1⟩

/-- A fault of the token at the cursor is not reported by calls that start right of it. -/
theorem Report.add_opener {problems all : List Problem} {log : List Reading} {opener : Token}
    {fault : Fault} (h : call.Report src problems log []) (hc : src.Holds call.cursor)
    (ht : call.cursor.rest.head? = some opener) (hfault : ¬ fault.IsOfLiteral)
    (hlog : ∀ r ∈ log, r.call.openers = [] ∧ call.cursor.index < r.call.cursor.index)
    (hall : all = problems ∨ all = problems ++ [⟨fault, opener.start⟩]) :
    ∃ own, call.Report src all log own := by
  obtain rfl | rfl := hall
  · exact ⟨_, h⟩
  · refine ⟨_, h.add (k := call.cursor.index) hfault ⟨opener, getElem?_of_head? hc ht, rfl⟩
      (.inl le_rfl) ?_ List.perm_append_comm⟩
    intro r hr hk
    obtain ⟨hopeners, hlt⟩ := hlog r hr
    have := (mayReport_iff_of_openers hopeners).1 hk
    omega

theorem block_reports {opener : Token} {kind : BlockKind} {c : Cursor} (hc : src.Holds c)
    (ht : c.rest.head? = some opener) :
    Reports src (block opener kind c) ((block opener kind c).script src) := by
  intro body hbody
  have hlt : c.index < c.next.params.2.index := c.next.le_index_params
  refine Report.add_opener (.one_plain (r := ⟨statements kind.closes c.next.params.2, body⟩) rfl hbody.1)
    hc ht ?_ (by simpa using ⟨rfl, hlt⟩) (closeBody_problems src kind.closes opener kind.fault body)
  cases kind <;> simp [BlockKind.fault, Fault.IsOfLiteral]

theorem compound_reports {opener : Token} {c : Cursor} (hc : src.Holds c)
    (ht : c.rest.head? = some opener) :
    Reports src (compound opener c) ((compound opener c).script src) := by
  intro body hbody
  have hlt : c.index < (c.next.line (isLoopWord opener.text)).2.index := c.next.le_index_line _
  exact Report.add_opener (.one_plain (r := ⟨statements (·.isKeyword ["end"]) _, body⟩) rfl hbody.1)
    hc ht (by simp [Fault.IsOfLiteral]) (by simpa using ⟨rfl, hlt⟩)
    (closeBody_problems src (·.isKeyword ["end"]) opener (.openKeyword opener.text) body)

theorem branches_reports {word : ConditionalWord} {c : Cursor} :
    Reports src (branches word c) ((branches word c).script src) := by
  rw [script]
  cases branchStep word c.skipSeparators.rest with
  | done => exact ⟨_, .nothing⟩
  | close t => exact ⟨_, .nothing⟩
  | branch branchWord t =>
    exact fun body hbody more hmore => ⟨_, .two_plain rfl rfl hbody.1 hmore.1 rfl⟩

theorem conditional_reports {opener : Token} {c : Cursor} (hc : src.Holds c)
    (ht : c.rest.head? = some opener) :
    Reports src (conditional opener c) ((conditional opener c).script src) := by
  rw [script]
  dsimp only
  split_ifs
  · intro read hread
    have hlt : c.index < (c.next.line false).2.skipSeparators.index :=
      (c.next.le_index_line false).trans (Cursor.le_index_skipSeparators _)
    exact Report.add_opener (.one_plain (r := ⟨branches .caseOf _, read⟩) rfl hread.1) hc ht
      (by simp [Fault.IsOfLiteral]) (by simpa using ⟨rfl, hlt⟩)
      (closeConditional_problems src opener c.index _ read)
  · intro body hbody more hmore
    have hlt : c.index < (branchHead (firstBranchWord (conditionalWord opener)) c.next).2.index :=
      c.next.le_index_branchHead _
    exact Report.add_opener
      (.two_plain (x := ⟨statements _ _, body⟩) (y := ⟨branches _ _, more⟩) rfl rfl hbody.1 hmore.1 rfl)
      hc ht (by simp [Fault.IsOfLiteral])
      (by simpa using ⟨⟨rfl, hlt⟩, rfl, hlt.trans_le hbody.2⟩)
      (closeConditional_problems src opener c.index _ _)

section Command

variable {first : Token} {start : Nat} {d d' : CommandDraft} {c c' : Cursor}

/-- The rest of a command, with the brackets that were open before. -/
theorem settled_rest (hs : (command first start d c).Settled src) (hopeners : d'.openers = d.openers)
    (hle : c.index ≤ c'.index) : (command first start d' c').Settled src := by
  intro o ho
  rw [openers, hopeners] at ho
  obtain ⟨k, hk, ht⟩ := hs o ho
  exact ⟨k, hk.trans_le hle, ht⟩

theorem mayReport_rest (hopeners : d'.openers = d.openers) (hle : c.index ≤ c'.index) {k : Nat}
    (hk : (command first start d' c').MayReport src k) : (command first start d c).MayReport src k := by
  rcases hk with hk | ⟨o, ho, ht⟩
  · exact .inl (hle.trans hk)
  · rw [openers, hopeners] at ho
    exact .inr ⟨o, ho, ht⟩

/-- A bracket of the command that is not closed is not reported by what was read since. -/
theorem Report.add_bracket {problems all : List Problem} {log : List Reading}
    (h : (command first start d c).Report src problems log [])
    (hs : (command first start d c).Settled src)
    (hlog : ∀ r ∈ log, r.call.openers = [] ∧ c.index ≤ r.call.cursor.index)
    (hall : all = problems ∨
      ∃ o ∈ d.openers, all = problems ++ [⟨.openBracket o.text, o.start⟩]) :
    ∃ own, (command first start d c).Report src all log own := by
  obtain rfl | ⟨o, ho, rfl⟩ := hall
  · exact ⟨_, h⟩
  · obtain ⟨k, hk, ht⟩ := hs o ho
    refine ⟨_, h.add (e := ⟨.openBracket o.text, o.start⟩) (by simp [Fault.IsOfLiteral]) ⟨o, ht, rfl⟩
      (.inr ⟨o, ho, ht⟩) ?_ List.perm_append_comm⟩
    intro r hr hmay
    obtain ⟨hopeners, hle⟩ := hlog r hr
    have hk' : k < c.index := hk
    have := (mayReport_iff_of_openers hopeners).1 hmay
    omega

/-- What a command takes that has brackets of its own, and the rest of the command after it. -/
theorem Report.nested (hsrc : src.InOrder) (hs : (command first start d c).Settled src) {x : Reading}
    (hx : x.call.openers = []) (hcursor : x.call.cursor = c) (hfloor : x.call.floor = c.index + 1)
    (hforward : Forward src (command first start d c) x) (hopeners : d'.openers = d.openers)
    (more : Parsed Command) :
    (command first start d c).Report src (more.after x.result.problems).problems
      [x, ⟨command first start d' x.result.cursor, more⟩] [] := by
  have hle : c.index ≤ x.result.cursor.index := Nat.le_of_succ_le (hfloor.symm.trans_le hforward.2)
  refine .two (y := ⟨command first start d' x.result.cursor, more⟩) hx hforward.1
    (settled_rest hs hopeners hle) (fun k => mayReport_rest hopeners hle) ?_
  intro k hk hmay
  rcases hmay with hmay | ⟨o, ho, ht⟩
  · exact hmay
  · -- a bracket that was open before lies left of what was taken since
    rw [openers, hopeners] at ho
    obtain ⟨k', hk', ht'⟩ := hs o ho
    obtain rfl := hsrc.index_eq ht ht' rfl
    have hlt : k < c.index := hk'
    rw [hcursor] at hk
    omega

theorem command_reports (hsrc : src.InOrder) (hc : src.Holds c)
    (hs : (command first start d c).Settled src) :
    Reports src (command first start d c) ((command first start d c).script src) := by
  have hfinish : ∀ (d' : CommandDraft) (c' : Cursor), d'.openers = d.openers →
      (d'.finish src first start c').problems = [] ∨ ∃ o ∈ d.openers,
        (d'.finish src first start c').problems = [] ++ [⟨.openBracket o.text, o.start⟩] := by
    intro d' c' hopeners
    rw [← hopeners]
    exact d'.finish_problems src first start c'
  rw [script]
  -- what the end of the command reports is about one of the brackets that are open
  cases hstep : d.step c.rest with
  | done => exact Report.nothing.add_bracket hs (by simp) (hfinish d c rfl)
  | modifier t => exact Report.nothing.add_bracket hs (by simp) (hfinish _ _ rfl)
  | skip =>
    exact fun more hmore => ⟨_, .one (r := ⟨command first start d c.next, more⟩)
      (settled_rest hs rfl (Nat.le_succ _)) fun k => mayReport_rest rfl (Nat.le_succ _)⟩
  | push t =>
    obtain ⟨⟨rest, hrest⟩, -⟩ := CommandDraft.step_token (t := t) (by rw [hstep]; rfl)
    have ht : src.tokens[c.index]? = some t := getElem?_of_head? hc (by rw [hrest]; rfl)
    intro more hmore
    refine ⟨_, .one (r := ⟨command first start (d.push t) c.next, more⟩) ?_ ?_⟩
    · intro o ho
      obtain rfl | ho := CommandDraft.mem_openers_push ho
      · exact ⟨c.index, Nat.lt_succ_self _, ht⟩
      · obtain ⟨k, hk, hk'⟩ := hs o ho
        exact ⟨k, hk.trans (Nat.lt_succ_self _), hk'⟩
    · rintro k (hk | ⟨o, ho, hk⟩)
      · exact .inl ((Nat.le_succ _).trans hk)
      · obtain rfl | ho := CommandDraft.mem_openers_push ho
        · exact .inl (hsrc.index_eq ht hk rfl).le
        · exact .inr ⟨o, ho, hk⟩
  -- nested reading leaves the brackets of the command as they are
  | conditional t =>
    intro nested hnested more _
    have hopeners : (d.addRun c nested.cursor.index).openers = d.openers := rfl
    exact ⟨_, Report.nested (x := ⟨conditional t c, nested⟩) hsrc hs rfl rfl rfl hnested hopeners more⟩
  | compound t =>
    intro nested hnested more _
    have hopeners : (d.addRun c nested.cursor.index).openers = d.openers := rfl
    exact ⟨_, Report.nested (x := ⟨compound t c, nested⟩) hsrc hs rfl rfl rfl hnested hopeners more⟩
  | block t kind =>
    intro block hblock
    dsimp only
    split
    · exact fun more _ => ⟨_, Report.nested (x := ⟨.block t kind c, block⟩) hsrc hs rfl rfl rfl hblock
        (d.openers_addBlock block.value) more⟩
    · refine Report.add_bracket (.one_plain (r := ⟨.block t kind c, block⟩) rfl hblock.1) hs
        (by simp [openers, cursor]) ?_
      rcases hfinish (d.addBlock block.value) block.cursor (d.openers_addBlock _) with h | ⟨o, ho, h⟩
      · exact .inl (by rw [Parsed.problems_after, h, List.append_nil])
      · exact .inr ⟨o, ho, by rw [Parsed.problems_after, h, List.nil_append]⟩

end Command

/-- What a call reports is what the calls that it makes report, and perhaps one problem more at a place
that they do not report; the next call reports nothing left of where the one before ended. -/
theorem script_reports (hsrc : src.InOrder) (hp : call.Placed src) (hs : call.Settled src) :
    Reports src call (call.script src) := by
  cases call with
  | statements stop c => exact statements_reports hp
  | statement t c => exact statement_reports
  | block opener kind c => exact block_reports hp.1 hp.2
  | branches word c => exact branches_reports
  | conditional opener c => exact conditional_reports hp.1 hp.2
  | compound opener c => exact compound_reports hp.1 hp.2
  | command first start d c => exact command_reports hsrc hp.1 hs

end Steps

end ParserCall

/-! ### Problems at the end of a call -/

/-- A problem of a call at a place that it leaves to the next call. -/
def Reading.GivesBack (src : TokenSource) (r : Reading) (e : Problem) : Prop :=
  e ∈ r.result.problems ∧ ∃ k, e.LiesAt src k ∧ r.result.cursor.index ≤ k

/-- Nothing that the first call gives back is reported by the second. -/
def NotAgain (src : TokenSource) (x y : Reading) : Prop :=
  ∀ e, x.GivesBack src e → ∀ e' ∈ y.result.problems, e.entry ≠ e'.entry

namespace ParserCall

variable {src : TokenSource} {call : ParserCall} {p : Parsed call.Result} {log : List Reading}

/-- Nowhere in what a call leads to is something reported again that was given back. -/
def NeverAgain (src : TokenSource) (call : ParserCall) (p : Parsed call.Result) : Prop :=
  ∀ r, r = ⟨call, p⟩ ∨ call.Nested src r → ∀ inner, r.call.EndsIn src r.result inner →
    inner.Pairwise (NotAgain src)

theorem EndsIn.reports (hsrc : src.InOrder) (h : call.EndsIn src p log) (hp : call.Placed src)
    (hs : call.Settled src) : ∃ own, call.Report src p.problems log own :=
  h.ensures (fun r hr => ⟨h.above hp r hr, (h.endsFrom_of_mem hp r hr).2⟩) (script_reports hsrc hp hs)

/-- A call reports structure, at places that it may report. -/
theorem EndsIn.located (hsrc : src.InOrder) (h : call.EndsIn src p log) (hp : call.Placed src)
    (hs : call.Settled src) :
    ∀ e ∈ p.problems, ¬ e.fault.IsOfLiteral ∧ ∃ k, e.LiesAt src k ∧ call.MayReport src k := by
  revert hs
  refine h.induct (P := fun call p => call.Settled src →
    ∀ e ∈ p.problems, ¬ e.fault.IsOfLiteral ∧ ∃ k, e.LiesAt src k ∧ call.MayReport src k) ?_ hp
  intro call p log hp h ih hs e he
  obtain ⟨own, hreport⟩ := h.reports hsrc hp hs
  rcases List.mem_append.1 (hreport.perm.mem_iff.1 he) with hown | hnested
  · obtain ⟨hfault, k, hlies, hk, -⟩ := hreport.own e hown
    exact ⟨hfault, k, hlies, hk⟩
  · obtain ⟨r, hr, he⟩ := List.mem_flatMap.1 hnested
    obtain ⟨hfault, k, hlies, hk⟩ := (ih r hr).2 (hreport.settled r hr) e he
    exact ⟨hfault, k, hlies, hreport.within r hr k hk⟩

/-- A call reports everything once when the calls that it makes do, and none reports again what the one
before it gave back. -/
theorem EndsIn.reportedOnce_iff (hsrc : src.InOrder) (h : call.EndsIn src p log)
    (hp : call.Placed src) (hs : call.Settled src) :
    ReportedOnce p.problems ↔
      (∀ r ∈ log, ReportedOnce r.result.problems) ∧ log.Pairwise (NotAgain src) := by
  obtain ⟨own, hreport⟩ := h.reports hsrc hp hs
  have hlocated : ∀ r ∈ log, ∀ e ∈ r.result.problems,
      ∃ k, e.LiesAt src k ∧ r.call.MayReport src k := by
    intro r hr e he
    obtain ⟨inner, hin⟩ := h.made r hr
    exact (hin.located hsrc (h.above hp r hr).placed (hreport.settled r hr) e he).2
  have hown : (own.map Problem.entry).Nodup := by
    have := hreport.single
    match own with
    | [] => exact List.nodup_nil
    | [e] => exact List.nodup_singleton _
  -- what a call reports itself is at no token at which the calls it makes may report
  have hapart : (own.map Problem.entry).Disjoint
      ((log.flatMap (·.result.problems)).map Problem.entry) := by
    intro entry hleft hright
    obtain ⟨e, he, rfl⟩ := List.mem_map.1 hleft
    obtain ⟨e', he', hentry⟩ := List.mem_map.1 hright
    obtain ⟨r, hr, he'⟩ := List.mem_flatMap.1 he'
    obtain ⟨-, k, hlies, -, hnot⟩ := hreport.own e he
    obtain ⟨k', hlies', hk'⟩ := hlocated r hr e' he'
    obtain rfl := hsrc.index_eq_of_entry hlies' hlies hentry
    exact hnot r hr hk'
  have hagain : (log.map fun r => r.result.problems.map Problem.entry).Pairwise List.Disjoint ↔
      log.Pairwise (NotAgain src) := by
    rw [List.pairwise_map]
    constructor
    · refine List.Pairwise.imp fun hdisjoint e hgives e' he' hentry => ?_
      exact hdisjoint (List.mem_map_of_mem hgives.1) (hentry ▸ List.mem_map_of_mem he')
    -- two calls may report at one token only where the first gave it back
    · intro hnot
      refine (hnot.and hreport.apart).imp_of_mem fun hx hy hand entry hleft hright => ?_
      obtain ⟨e, he, rfl⟩ := List.mem_map.1 hleft
      obtain ⟨e', he', hentry⟩ := List.mem_map.1 hright
      obtain ⟨k, hlies, hk⟩ := hlocated _ hx e he
      obtain ⟨k', hlies', hk'⟩ := hlocated _ hy e' he'
      obtain rfl := hsrc.index_eq_of_entry hlies' hlies hentry
      exact hand.1 e ⟨he, _, hlies, hand.2 _ hk hk'⟩ e' he' hentry.symm
  unfold ReportedOnce
  rw [(hreport.perm.map Problem.entry).nodup_iff, List.map_append, List.nodup_append',
    List.map_flatMap, List.nodup_flatMap]
  rw [List.map_flatMap] at hapart
  rw [← hagain, List.pairwise_map]
  exact ⟨fun hall => hall.2.1, fun hlog => ⟨hown, hlog, hapart⟩⟩

/-- A call reports everything once exactly when nothing that is given back is reported again. -/
theorem EndsIn.reportedOnce_iff_neverAgain (hsrc : src.InOrder) (h : call.EndsIn src p log)
    (hp : call.Placed src) (hs : call.Settled src) :
    ReportedOnce p.problems ↔ call.NeverAgain src p := by
  revert hs
  refine h.induct (P := fun call p => call.Settled src →
    (ReportedOnce p.problems ↔ call.NeverAgain src p)) ?_ hp
  intro call p log hp h ih hs
  obtain ⟨own, hreport⟩ := h.reports hsrc hp hs
  have hlog : ∀ r ∈ log, (ReportedOnce r.result.problems ↔ r.call.NeverAgain src r.result) :=
    fun r hr => (ih r hr).2 (hreport.settled r hr)
  rw [h.reportedOnce_iff hsrc hp hs]
  constructor
  · rintro ⟨hnested, hpairwise⟩ r (rfl | hr) inner hin
    · obtain ⟨-, rfl⟩ := h.unique hin
      exact hpairwise
    · obtain ⟨x, hx, hr⟩ := h.nested_iff.1 hr
      exact (hlog x hx).1 (hnested x hx) r hr inner hin
  · intro hnever
    refine ⟨fun x hx => (hlog x hx).2 fun r hr inner hin => ?_, hnever _ (.inl rfl) log h⟩
    exact hnever r (.inr (h.nested_iff.2 ⟨x, hx, hr⟩)) inner hin

end ParserCall

/-! ### Files -/

def TokenSource.whole (src : TokenSource) : ParserCall := .statements (fun _ => false) (src.cursor 0)

/-- A file has no two problems with the same code and offset exactly when no call of the parser reports
again what another one gave back to it; problems of literals are never repeated. -/
theorem reportedOnce_ofText_iff (text : Text) :
    ReportedOnce (Program.ofText text).problems ↔
      (TokenSource.ofText text).whole.NeverAgain (TokenSource.ofText text)
        (TokenSource.ofText text).parsed := by
  let src := TokenSource.ofText text
  have hsrc := TokenSource.inOrder_ofText text
  have hp : src.whole.Placed src := src.holds_cursor 0
  have hs : src.whole.Settled src := ParserCall.settled_of_openers rfl
  have hfuel : src.whole.need src ≤ src.fuel - 1 + 1 := src.fuel_enough
  obtain ⟨log, hends⟩ : ∃ log, src.whole.EndsIn src src.parsed log := ⟨_, ParserCall.ends hp hfuel⟩
  obtain ⟨hlexed, hliteral⟩ := lex_problems_nodup text 0
  have hproblems : (Program.ofText text).problems = (lex text 0).problems ++ src.parsed.problems := rfl
  have honce : ReportedOnce (lex text 0).problems := by
    refine List.Nodup.of_map Prod.snd ?_
    rw [List.map_map]
    exact hlexed
  have hapart : ((lex text 0).problems.map Problem.entry).Disjoint
      (src.parsed.problems.map Problem.entry) := by
    intro entry hleft hright
    obtain ⟨e, he, rfl⟩ := List.mem_map.1 hleft
    obtain ⟨e', he', hentry⟩ := List.mem_map.1 hright
    have hfault := (hends.located hsrc hp hs e' he').1
    exact Fault.code_ne_code (hliteral e he) hfault (Prod.mk.inj hentry).1.symm
  rw [← hends.reportedOnce_iff_neverAgain hsrc hp hs, hproblems]
  unfold ReportedOnce
  rw [List.map_append, List.nodup_append']
  exact ⟨fun h => h.2.1, fun h => ⟨honce, h, hapart⟩⟩

/-- Two open blocks, the second no deeper than the first: the second is read in the body of the first,
where it is reported, and then given back and read after it. -/
theorem open_block_reported_twice :
    let text : Text := "foo do\nbar do\n"
    (Program.ofText text).problems.map Problem.entry =
        [(.blockUnterminated, 11), (.blockUnterminated, 4), (.blockUnterminated, 11)] ∧
      ¬ (TokenSource.ofText text).whole.NeverAgain (TokenSource.ofText text)
        (TokenSource.ofText text).parsed := by
  intro text
  have hentries : (Program.ofText text).problems.map Problem.entry =
      [(.blockUnterminated, 11), (.blockUnterminated, 4), (.blockUnterminated, 11)] := by
    decide +kernel
  refine ⟨hentries, fun hnever => ?_⟩
  have honce := (reportedOnce_ofText_iff text).2 hnever
  unfold ReportedOnce at honce
  rw [hentries] at honce
  exact absurd honce (by decide)

end Cookbook
