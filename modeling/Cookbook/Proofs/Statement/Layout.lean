import Cookbook.Proofs.Statement.Fuel
import Cookbook.Proofs.Statement.Shift
import Cookbook.Proofs.Token.Order

/-!
Where statements lie among the tokens. A call reads the tokens from one index up to another, and what
it returns lies there: the statements of a list one after another, those of a body between the opener
and the closer. Where reading resumes further left, after something was left open, the part that was
read again is cut off first.

* `Statement.Lies src i j` says that a statement lies between two indices, `listLies` that those of a
  list do, one after another;
* `Reading.Laid` says it of what a call of the parser returns, and every call keeps it;
* `Program.listLies_ofText` is the result for whole files.
-/

namespace Cookbook

/-! ### Tokens in order -/

namespace TokenSource

/-- The tokens take something each and follow one another. -/
structure InOrder (src : TokenSource) : Prop where
  nonempty : ∀ t ∈ src.tokens, t.start < t.stop
  pairwise : src.tokens.Pairwise fun t u => t.stop ≤ u.start

theorem inOrder_ofText (text : Text) : (TokenSource.ofText text).InOrder :=
  ⟨(lex_inOrder text 0).1, (lex_inOrder text 0).2⟩

section InOrder

variable {src : TokenSource} (hsrc : src.InOrder) {i j : Nat} {t u : Token}

include hsrc

theorem InOrder.start_lt_stop (ht : src.tokens[i]? = some t) : t.start < t.stop :=
  hsrc.nonempty t (List.mem_of_getElem? ht)

theorem InOrder.stop_le_start (ht : src.tokens[i]? = some t) (hu : src.tokens[j]? = some u)
    (hij : i < j) : t.stop ≤ u.start := by
  obtain ⟨hi, rfl⟩ := List.getElem?_eq_some_iff.1 ht
  obtain ⟨hj, rfl⟩ := List.getElem?_eq_some_iff.1 hu
  exact List.pairwise_iff_getElem.1 hsrc.pairwise i j hi hj hij

theorem InOrder.start_le_start (ht : src.tokens[i]? = some t) (hu : src.tokens[j]? = some u)
    (hij : i ≤ j) : t.start ≤ u.start := by
  rcases Nat.lt_or_eq_of_le hij with hij | rfl
  · exact (hsrc.start_lt_stop ht).le.trans (hsrc.stop_le_start ht hu hij)
  · obtain rfl := Option.some.inj (ht.symm.trans hu)
    exact le_rfl

/-- Of two tokens, the one that starts first has the lower index. -/
theorem InOrder.lt_of_start_lt (ht : src.tokens[i]? = some t) (hu : src.tokens[j]? = some u)
    (hlt : t.start < u.start) : i < j := by
  by_contra hij
  have := hsrc.start_le_start hu ht (Nat.le_of_not_lt hij)
  omega

end InOrder

/-- An offset comes no later than the tokens from an index on. -/
def EndsBy (src : TokenSource) (offset index : Nat) : Prop :=
  ∀ k t, index ≤ k → src.tokens[k]? = some t → offset ≤ t.start

variable {src : TokenSource} {i j x y : Nat} {t : Token}

theorem EndsBy.mono (h : src.EndsBy x i) (hij : i ≤ j) : src.EndsBy x j :=
  fun k t hk ht => h k t (hij.trans hk) ht

theorem endsBy_zero : src.EndsBy 0 i := fun _ _ _ _ => Nat.zero_le _

theorem EndsBy.max (hx : src.EndsBy x i) (hy : src.EndsBy y i) : src.EndsBy (max x y) i :=
  fun k t hk ht => max_le (hx k t hk ht) (hy k t hk ht)

theorem InOrder.endsBy (hsrc : src.InOrder) (ht : src.tokens[i]? = some t) (hij : i < j) :
    src.EndsBy t.stop j :=
  fun _ _ hk hu => hsrc.stop_le_start ht hu (hij.trans_le hk)

/-- The end of the last token before an index comes no later than that index; and no earlier than
the end of any such token other than a newline. -/
theorem InOrder.endsBy_endBefore (hsrc : src.InOrder) (ht : src.tokens[i]? = some t)
    (hline : t.isNewline = false) (hij : i < j) (fallback : Nat) :
    src.EndsBy (src.endBefore j fallback) j ∧ t.stop ≤ src.endBefore j fallback := by
  have hmem : t ∈ (src.tokens.take j).reverse := by
    rw [List.mem_reverse]
    refine List.mem_of_getElem? (i := i) ?_
    rw [List.getElem?_take_of_lt hij]
    exact ht
  obtain ⟨u, hu⟩ : ∃ u, (src.tokens.take j).reverse.find? (fun t => !t.isNewline) = some u := by
    rw [← Option.isSome_iff_exists, List.find?_isSome]
    exact ⟨t, hmem, by simp [hline]⟩
  have hend : src.endBefore j fallback = u.stop := by
    unfold endBefore
    rw [hu]
  -- what is passed over on the way back to `u` is all newlines
  obtain ⟨huline, as, bs, hsplit, has⟩ := List.find?_eq_some_iff_append.1 hu
  have htake : src.tokens.take j = bs.reverse ++ u :: as.reverse := by
    have := congrArg List.reverse hsplit
    simpa using this
  have hui : (src.tokens.take j)[bs.length]? = some u := by
    rw [htake, List.getElem?_append_right (by simp)]
    simp
  have hlt : bs.length < j := by
    have := (List.getElem?_eq_some_iff.1 hui).1
    rw [List.length_take] at this
    omega
  rw [List.getElem?_take_of_lt hlt] at hui
  rw [hend]
  refine ⟨hsrc.endsBy hui hlt, ?_⟩
  have hle : i ≤ bs.length := by
    by_contra hgt
    have hti : (src.tokens.take j)[i]? = some t := by rwa [List.getElem?_take_of_lt hij]
    rw [htake, List.getElem?_append_right (by simp; omega), List.length_reverse] at hti
    obtain ⟨n, hn⟩ : ∃ n, i - bs.length = n + 1 := ⟨i - bs.length - 1, by omega⟩
    rw [hn, List.getElem?_cons_succ] at hti
    have := has t (List.mem_reverse.1 (List.mem_of_getElem? hti))
    simp [hline] at this
  rcases Nat.lt_or_eq_of_le hle with hlt' | rfl
  · exact (hsrc.stop_le_start ht hui hlt').trans (hsrc.start_lt_stop hui).le
  · obtain rfl := Option.some.inj (ht.symm.trans hui)
    exact le_rfl

/-- Where reading resumes after an open bracket, if it does, lies after the bracket. -/
theorem InOrder.lt_resyncToken (hsrc : src.InOrder) (ht : src.tokens[i]? = some t) (from' : Nat) :
    i < src.resyncToken t from' := by
  rw [resyncToken_eq]
  cases h : (List.range' from' (src.size - from')).find? (src.resumesAtToken t) with
  | none => exact (List.getElem?_eq_some_iff.1 ht).1
  | some k =>
    have hk := List.find?_some h
    unfold resumesAtToken at hk
    split at hk
    · rename_i u hu
      simp only [isOutdented, Bool.and_eq_true, decide_eq_true_eq] at hk
      exact hsrc.lt_of_start_lt ht hu hk.1.2.1
    · exact absurd hk (by simp)

end TokenSource

/-! ### Where statements lie -/

/-- The extent starts with a token from `i` on, takes something, and ends by the token at `j`. -/
structure Extent.Lies (src : TokenSource) (i j : Nat) (e : Extent) : Prop where
  lower : i ≤ e.firstIndex
  upper : e.firstIndex < j
  first : ∃ t, src.tokens[e.firstIndex]? = some t ∧ t.start = e.start
  nonempty : e.start < e.stop
  stop : src.EndsBy e.stop j

/-- The closer, if there is one, stands from index `m` on and before index `j`. -/
def ClosesFrom (src : TokenSource) (m j : Nat) (closer : Option Token) : Prop :=
  m ≤ j ∧ ∀ t ∈ closer, ∃ n, m ≤ n ∧ n < j ∧ src.tokens[n]? = some t

/-- An opener from index `i` on, what stands inside, and a closer before index `j`. -/
def Encloses (src : TokenSource) (i j : Nat) (opener : Token) (closer : Option Token)
    (inside : Nat → Nat → Prop) : Prop :=
  ∃ k m, i ≤ k ∧ src.tokens[k]? = some opener ∧ inside (k + 1) m ∧ ClosesFrom src m j closer

mutual

/-- The statement lies between two indices, and what stands in it lies in it; the blocks within heads
are left out. -/
def Statement.Lies (src : TokenSource) (i j : Nat) : Statement → Prop
  | .command c => c.Lies src i j
  | .conditional ⟨extent, _, _, branches, opener, closer⟩ =>
    extent.Lies src i j ∧
      Encloses src extent.firstIndex j opener closer fun k m => branchesLie src k m branches
  | .compound ⟨extent, _, body, opener, closer⟩ =>
    extent.Lies src i j ∧
      Encloses src extent.firstIndex j opener closer fun k m => listLies src k m body

def Command.Lies (src : TokenSource) (i j : Nat) : Command → Prop
  | ⟨extent, _, block, _, _⟩ =>
    extent.Lies src i j ∧
      match block with
      | some b => b.Lies src extent.firstIndex j
      | none => True

def Block.Lies (src : TokenSource) (i j : Nat) : Block → Prop
  | ⟨_, opener, closer, _, body⟩ => Encloses src i j opener closer fun k m => listLies src k m body

def listLies (src : TokenSource) : (i j : Nat) → List Statement → Prop
  | i, j, [] => i ≤ j
  | i, j, s :: rest => ∃ m, s.Lies src i m ∧ listLies src m j rest

/-- The bodies of the branches lie between two indices, one after another. -/
def branchesLie (src : TokenSource) : (i j : Nat) → List Branch → Prop
  | i, j, [] => i ≤ j
  | i, j, ⟨_, _, body, _⟩ :: rest => ∃ m, listLies src i m body ∧ branchesLie src m j rest

end

section Bounds

variable {src : TokenSource} {i i' j j' : Nat}

theorem Extent.Lies.mono {e : Extent} (h : e.Lies src i j) (hi : i' ≤ i) (hj : j ≤ j') :
    e.Lies src i' j' :=
  ⟨hi.trans h.lower, h.upper.trans_le hj, h.first, h.nonempty, h.stop.mono hj⟩

theorem ClosesFrom.mono {m : Nat} {closer : Option Token} (h : ClosesFrom src m j closer)
    (hj : j ≤ j') : ClosesFrom src m j' closer := by
  refine ⟨h.1.trans hj, ?_⟩
  intro t ht
  obtain ⟨n, hmn, hnj, hn⟩ := h.2 t ht
  exact ⟨n, hmn, hnj.trans_le hj, hn⟩

theorem Encloses.mono {opener : Token} {closer : Option Token} {inside : Nat → Nat → Prop}
    (h : Encloses src i j opener closer inside) (hi : i' ≤ i) (hj : j ≤ j') :
    Encloses src i' j' opener closer inside := by
  obtain ⟨k, m, hik, hk, hinside, hcloser⟩ := h
  exact ⟨k, m, hi.trans hik, hk, hinside, hcloser.mono hj⟩

theorem Command.lies_iff {c : Command} :
    c.Lies src i j ↔ c.extent.Lies src i j ∧ ∀ b ∈ c.block, b.Lies src c.extent.firstIndex j := by
  obtain ⟨extent, head, block, innerBlocks, modifier⟩ := c
  cases block <;> simp [Command.Lies]

theorem Block.lies_iff {b : Block} :
    b.Lies src i j ↔
      Encloses src i j b.opener b.closer fun k m => listLies src k m b.body := by
  obtain ⟨kind, opener, closer, params, body⟩ := b
  rw [Block.Lies]

theorem Statement.lies_conditional {c : Conditional} :
    (Statement.conditional c).Lies src i j ↔ c.extent.Lies src i j ∧
      Encloses src c.extent.firstIndex j c.opener c.closer fun k m =>
        branchesLie src k m c.branches := by
  obtain ⟨extent, word, subject, branches, opener, closer⟩ := c
  rw [Statement.Lies]

theorem Statement.lies_compound {c : Compound} :
    (Statement.compound c).Lies src i j ↔ c.extent.Lies src i j ∧
      Encloses src c.extent.firstIndex j c.opener c.closer fun k m => listLies src k m c.body := by
  obtain ⟨extent, head, body, opener, closer⟩ := c
  rw [Statement.Lies]

theorem branchesLie_cons {b : Branch} {rest : List Branch} :
    branchesLie src i j (b :: rest) ↔ ∃ m, listLies src i m b.body ∧ branchesLie src m j rest := by
  obtain ⟨word, condition, body, start⟩ := b
  rw [branchesLie]

theorem Block.Lies.mono {b : Block} (h : b.Lies src i j) (hi : i' ≤ i) (hj : j ≤ j') :
    b.Lies src i' j' := by
  rw [Block.lies_iff] at h ⊢
  exact h.mono hi hj

theorem Command.Lies.mono {c : Command} (h : c.Lies src i j) (hi : i' ≤ i) (hj : j ≤ j') :
    c.Lies src i' j' := by
  rw [Command.lies_iff] at h ⊢
  exact ⟨h.1.mono hi hj, fun b hb => (h.2 b hb).mono le_rfl hj⟩

theorem Statement.Lies.mono {s : Statement} (h : s.Lies src i j) (hi : i' ≤ i) (hj : j ≤ j') :
    s.Lies src i' j' := by
  cases s with
  | command c => exact Command.Lies.mono (c := c) h hi hj
  | conditional c =>
    rw [Statement.lies_conditional] at h ⊢
    exact ⟨h.1.mono hi hj, h.2.mono le_rfl hj⟩
  | compound c =>
    rw [Statement.lies_compound] at h ⊢
    exact ⟨h.1.mono hi hj, h.2.mono le_rfl hj⟩

theorem Statement.Lies.extent {s : Statement} (h : s.Lies src i j) : s.extent.Lies src i j := by
  cases s with
  | command c => exact (Command.lies_iff.1 h).1
  | conditional c => exact (Statement.lies_conditional.1 h).1
  | compound c => exact (Statement.lies_compound.1 h).1

theorem listLies.le {body : List Statement} (h : listLies src i j body) : i ≤ j := by
  induction body generalizing i with
  | nil => exact h
  | cons s rest ih =>
    obtain ⟨m, hs, hrest⟩ := h
    have := ih hrest
    have := hs.extent.lower
    have := hs.extent.upper
    omega

theorem listLies.mono {body : List Statement} (h : listLies src i j body) (hi : i' ≤ i)
    (hj : j ≤ j') : listLies src i' j' body := by
  induction body generalizing i i' with
  | nil => exact hi.trans (Nat.le_trans h hj)
  | cons s rest ih =>
    obtain ⟨m, hs, hrest⟩ := h
    exact ⟨m, hs.mono hi le_rfl, ih hrest le_rfl⟩

theorem branchesLie.le {branches : List Branch} (h : branchesLie src i j branches) : i ≤ j := by
  induction branches generalizing i with
  | nil => exact h
  | cons b rest ih =>
    obtain ⟨m, hbody, hrest⟩ := branchesLie_cons.1 h
    exact hbody.le.trans (ih hrest)

theorem branchesLie.mono {branches : List Branch} (h : branchesLie src i j branches) (hi : i' ≤ i)
    (hj : j ≤ j') : branchesLie src i' j' branches := by
  induction branches generalizing i i' with
  | nil => exact hi.trans (Nat.le_trans h hj)
  | cons b rest ih =>
    obtain ⟨m, hbody, hrest⟩ := branchesLie_cons.1 h
    exact branchesLie_cons.2 ⟨m, hbody.mono hi le_rfl, ih hrest le_rfl⟩

end Bounds

/-! ### Cuts -/

section Cuts

variable {src : TokenSource} {i j : Nat}

/-- A body that is cut where reading resumes lies before the statement it resumes at. -/
theorem listLies.resync {body : List Statement} (h : listLies src i j body) (opener : Token) :
    listLies src i ((src.resync opener body).2.getD j) (src.resync opener body).1 := by
  induction body generalizing i with
  | nil => exact h
  | cons s rest ih =>
    obtain ⟨m, hs, hrest⟩ := h
    unfold TokenSource.resync
    rw [List.takeWhile_cons, List.find?_cons]
    cases hresumes : src.resumesAt opener s with
    | true => exact hs.extent.lower
    | false => exact ⟨m, hs, ih hrest⟩

theorem branchesLie.resync {branches : List Branch} (h : branchesLie src i j branches)
    (opener : Token) :
    branchesLie src i ((resyncBranches src opener branches).2.getD j)
      (resyncBranches src opener branches).1 := by
  induction branches generalizing i with
  | nil => exact h
  | cons b more ih =>
    obtain ⟨m, hbody, hmore⟩ := branchesLie_cons.1 h
    cases more with
    | nil =>
      have hcut := (hbody.mono le_rfl hmore).resync opener
      exact branchesLie_cons.2 ⟨_, hcut, le_rfl⟩
    | cons b' more => exact branchesLie_cons.2 ⟨m, hbody, ih hmore⟩

theorem index_getD_cursor (src : TokenSource) (index : Option Nat) (c : Cursor) :
    ((index.map src.cursor).getD c).index = index.getD c.index := by
  cases index <;> rfl

/-- A body between its opener and where it is closed or cut. -/
theorem closeBody_lies (isCloser : Token → Bool) {opener : Token} (fault : Fault)
    {p : Parsed (List Statement)} {k : Nat} (hik : i ≤ k) (hk : src.tokens[k]? = some opener)
    (hp : listLies src (k + 1) p.cursor.index p.value) (hc : src.Holds p.cursor) :
    let b := closeBody src isCloser opener fault p
    Encloses src i b.cursor.index opener b.closer fun k m => listLies src k m b.body := by
  rcases closeBody_cases src isCloser opener fault p with ⟨t, hhead, -, he⟩ | ⟨-, he⟩
  · rw [he]
    refine ⟨k, p.cursor.index, hik, hk, hp, Nat.le_succ _, ?_⟩
    intro u hu
    obtain rfl := Option.some.inj hu
    refine ⟨p.cursor.index, le_rfl, Nat.lt_succ_self _, ?_⟩
    rw [← hhead, show p.cursor.rest = src.tokens.drop p.cursor.index from hc, List.head?_drop]
  · rw [he]
    refine ⟨k, _, hik, hk, hp.resync opener, ?_, fun t ht => absurd ht (by simp)⟩
    dsimp only
    rw [index_getD_cursor]

end Cuts

/-! ### Commands -/

namespace CommandDraft

/-- A modifier stands outside brackets. -/
theorem openers_of_modifier {d : CommandDraft} {tokens : List Token} {t : Token}
    (h : d.step tokens = .modifier t) : d.openers = [] := by
  unfold CommandDraft.step at h
  split at h
  · exact absurd h CommandStep.noConfusion
  · split at h
    · split at h <;> exact absurd h CommandStep.noConfusion
    · split at h
      · exact absurd h CommandStep.noConfusion
      · split at h
        · exact absurd h CommandStep.noConfusion
        · split at h
          · split at h
            · split at h <;> exact absurd h CommandStep.noConfusion
            · split at h
              · rename_i hopen
                simp only [Bool.and_eq_true, List.isEmpty_iff] at hopen
                exact hopen.1
              · exact absurd h CommandStep.noConfusion
          · exact absurd h CommandStep.noConfusion

/-- What was read of the command that starts at an index lies before another; the block lies before
the brackets that are still open, for a bracket before it would have made it an inner one. -/
structure Lies (src : TokenSource) (start index : Nat) (d : CommandDraft) : Prop where
  head : ∀ t ∈ d.head, ∃ k, start ≤ k ∧ k < index ∧ src.tokens[k]? = some t
  block : ∀ b ∈ d.block, b.Lies src start index
  openers : ∀ o ∈ d.openers, ∃ k, k < index ∧ src.tokens[k]? = some o ∧
    ∀ b ∈ d.block, b.Lies src start k
  modifier : d.modifier = none

variable {src : TokenSource} {start index index' : Nat} {d : CommandDraft}

theorem lies_empty (src : TokenSource) (start index : Nat) : empty.Lies src start index where
  head := fun _ ht => absurd ht List.not_mem_nil
  block := fun _ hb => absurd hb (by simp [empty])
  openers := fun _ ho => absurd ho List.not_mem_nil
  modifier := rfl

theorem Lies.mono (h : d.Lies src start index) (hle : index ≤ index') : d.Lies src start index' where
  head := by
    intro t ht
    obtain ⟨k, hk, hlt, htok⟩ := h.head t ht
    exact ⟨k, hk, hlt.trans_le hle, htok⟩
  block := fun b hb => (h.block b hb).mono le_rfl hle
  openers := by
    intro o ho
    obtain ⟨k, hlt, hk, hblock⟩ := h.openers o ho
    exact ⟨k, hlt.trans_le hle, hk, hblock⟩
  modifier := h.modifier

theorem Lies.push {t : Token} (h : d.Lies src start index) (ht : src.tokens[index]? = some t)
    (hstart : start ≤ index) : (d.push t).Lies src start (index + 1) where
  head := by
    intro u hu
    rcases List.mem_cons.1 hu with rfl | hu
    · exact ⟨index, hstart, Nat.lt_succ_self _, ht⟩
    · exact (h.mono (Nat.le_succ _)).head u hu
  block := (h.mono (Nat.le_succ _)).block
  openers := by
    have hold := (h.mono (Nat.le_succ _)).openers
    intro o ho
    simp only [CommandDraft.push] at ho
    split at ho
    · rcases List.mem_cons.1 ho with rfl | ho
      · exact ⟨index, Nat.lt_succ_self _, ht, h.block⟩
      · exact hold o ho
    · split at ho
      · exact hold o (List.mem_of_mem_tail ho)
      · exact hold o ho
  modifier := h.modifier

theorem Lies.addBlock {b : Block} (h : d.Lies src start index) (hb : b.Lies src start index) :
    (d.addBlock b).Lies src start index := by
  unfold CommandDraft.addBlock
  split
  · rename_i hnone
    simp only [Bool.and_eq_true, List.isEmpty_iff] at hnone
    refine ⟨h.head, ?_, ?_, h.modifier⟩
    · intro b' hb'
      obtain rfl := Option.some.inj hb'
      exact hb
    · intro o ho
      rw [hnone.1] at ho
      exact absurd ho List.not_mem_nil
  · exact ⟨h.head, h.block, h.openers, h.modifier⟩

theorem Lies.addRun {c : Cursor} (h : d.Lies src start c.index) (hc : src.Holds c)
    (hstart : start ≤ c.index) (hle : c.index ≤ index) :
    (d.addRun c index).Lies src start index where
  head := by
    intro t ht
    rcases List.mem_append.1 ht with ht | ht
    · have ht := (List.mem_filter.1 (List.mem_reverse.1 ht)).1
      obtain ⟨n, hn, rfl⟩ := List.mem_iff_getElem.1 ht
      rw [List.length_take] at hn
      refine ⟨c.index + n, by omega, by omega, ?_⟩
      rw [List.getElem_take, ← List.getElem?_drop, ← show c.rest = _ from hc]
      exact List.getElem?_eq_getElem (by omega)
    · exact (h.mono hle).head t ht
  block := (h.mono hle).block
  openers := (h.mono hle).openers
  modifier := h.modifier

/-- The command of a draft ends where the last of its head, its block and its modifier does. -/
theorem build_lies (hsrc : src.InOrder) {first : Token} (hfirst : src.tokens[start]? = some first)
    (hlt : start < index) (hhead : ∀ t ∈ d.head.head?, first.start ≤ t.start ∧ t.start < t.stop ∧
      src.EndsBy t.stop index) (hblock : ∀ b ∈ d.block, b.Lies src start index)
    (hmodifier : ∀ m ∈ d.modifier, ∀ t ∈ m.condition.getLast?, src.EndsBy t.stop index) :
    (d.build first start).Lies src start index := by
  have hpos := hsrc.start_lt_stop hfirst
  have hheadStop : first.start < (d.head.head?.map Token.stop).getD first.stop ∧
      src.EndsBy ((d.head.head?.map Token.stop).getD first.stop) index := by
    cases hh : d.head.head? with
    | none => exact ⟨hpos, hsrc.endsBy hfirst hlt⟩
    | some t =>
      obtain ⟨hle, hlt', hend⟩ := hhead t hh
      exact ⟨hle.trans_lt hlt', hend⟩
  have hblockStop : src.EndsBy
      ((d.block.map fun b => ((b.closer.map Token.stop).getD b.opener.stop)).getD 0) index := by
    cases hb : d.block with
    | none => exact TokenSource.endsBy_zero
    | some b =>
      obtain ⟨k, m, -, hk, hbody, hle, hcloser⟩ := Block.lies_iff.1 (hblock b hb)
      have hkm := hbody.le
      simp only [Option.map_some, Option.getD_some]
      cases hc : b.closer with
      | none => exact hsrc.endsBy hk (by omega)
      | some t =>
        obtain ⟨n, -, hn, ht⟩ := hcloser t hc
        exact hsrc.endsBy ht hn
  have hmodifierStop : src.EndsBy
      (((d.modifier.bind (·.condition.getLast?)).map Token.stop).getD 0) index := by
    cases hm : d.modifier with
    | none => exact TokenSource.endsBy_zero
    | some m =>
      simp only [Option.bind_some]
      cases hl : m.condition.getLast? with
      | none => exact TokenSource.endsBy_zero
      | some t => exact hmodifier m hm t hl
  -- the head keeps the extent from being empty, and none of the three ends is past the bound
  rw [Command.lies_iff]
  refine ⟨⟨le_rfl, hlt, ⟨first, hfirst, rfl⟩, ?_, ?_⟩, hblock⟩
  · exact hheadStop.1.trans_le ((le_max_right _ _).trans (le_max_left _ _))
  · exact (hblockStop.max hheadStop.2).max hmodifierStop

theorem Lies.finish (h : d.Lies src start index) (hsrc : src.InOrder) {first : Token}
    (hfirst : src.tokens[start]? = some first) {c : Cursor} (hc : c.index = index)
    (hlt : start < index) :
    (d.finish src first start c).value.Lies src start (d.finish src first start c).cursor.index := by
  have hmodifier : ∀ j, ∀ m ∈ d.modifier, ∀ t ∈ m.condition.getLast?, src.EndsBy t.stop j :=
    fun j m hm => absurd hm (by simp [h.modifier])
  cases hopen : d.openers with
  | nil =>
    rw [finish_nil _ _ _ _ hopen]
    subst hc
    refine build_lies hsrc hfirst hlt ?_ h.block (hmodifier _)
    intro t ht
    obtain ⟨k, hk, hlt', htok⟩ := h.head t (List.mem_of_mem_head? ht)
    exact ⟨hsrc.start_le_start hfirst htok hk, hsrc.start_lt_stop htok, hsrc.endsBy htok hlt'⟩
  | cons unclosed more =>
    rw [finish_cons _ _ _ _ hopen]
    obtain ⟨k, hk, hunclosed, hblock⟩ := h.openers unclosed (by rw [hopen]; exact List.mem_cons_self)
    have hresync := hsrc.lt_resyncToken hunclosed (start + 1)
    generalize src.resyncToken unclosed (start + 1) = resync at hresync ⊢
    show ((d.cutHead src resync).build first start).Lies src start (max resync (start + 1))
    refine build_lies hsrc hfirst (Nat.lt_of_lt_of_le (Nat.lt_succ_self _) (le_max_right _ _)) ?_
      (fun b hb => (hblock b hb).mono le_rfl (hresync.le.trans (le_max_left _ _))) (hmodifier _)
    intro t ht
    -- what the cut leaves of the head starts before the token where reading resumes
    have hcut : t ∈ d.head ∧ src.EndsBy t.stop resync := by
      unfold CommandDraft.cutHead at ht
      dsimp only at ht
      split at ht
      · rename_i u hu
        have hmem := (List.dropWhile_suffix _).subset (List.mem_of_mem_head? ht)
        have hlt : t.start < u.start := by
          have := List.head?_dropWhile_not (fun v : Token => decide (u.start ≤ v.start)) d.head
          rw [Option.mem_def.1 ht] at this
          simpa using this
        obtain ⟨n, -, -, htok⟩ := h.head t hmem
        exact ⟨hmem, hsrc.endsBy htok (hsrc.lt_of_start_lt htok hu hlt)⟩
      · rename_i hnone
        refine ⟨List.mem_of_mem_head? ht, fun n u hn hu => ?_⟩
        have := List.getElem?_eq_none_iff.1 hnone
        have := (List.getElem?_eq_some_iff.1 hu).1
        omega
    obtain ⟨n, hn, -, htok⟩ := h.head t hcut.1
    exact ⟨hsrc.start_le_start hfirst htok hn, hsrc.start_lt_stop htok,
      hcut.2.mono (le_max_left _ _)⟩

end CommandDraft

/-! ### What each call returns -/

theorem TokenSource.Holds.getElem? {src : TokenSource} {c : Cursor} {t : Token} (hc : src.Holds c)
    (h : c.rest.head? = some t) : src.tokens[c.index]? = some t := by
  rw [← h, show c.rest = src.tokens.drop c.index from hc, List.head?_drop]

theorem Cursor.line_endsBy {src : TokenSource} (hsrc : src.InOrder) {c : Cursor} (hc : src.Holds c)
    (stopAtDo : Bool) : ∀ t ∈ (c.line stopAtDo).1, src.EndsBy t.stop (c.line stopAtDo).2.index := by
  intro t ht
  obtain ⟨n, hn, rfl⟩ := List.mem_iff_getElem.1 (lineRun_subset_take _ _ _ _ ht)
  rw [List.length_take] at hn
  refine hsrc.endsBy (i := c.index + n) ?_ ?_
  · rw [List.getElem_take, ← List.getElem?_drop, ← show c.rest = _ from hc]
    exact List.getElem?_eq_getElem (by omega)
  · show c.index + n < c.index + _
    omega

/-- The branches of a result lie from an index on, and its closer stands after them. -/
def BranchesLie (src : TokenSource) (i : Nat) (p : Parsed (List Branch × Option Token)) : Prop :=
  ∃ m, branchesLie src i m p.value.1 ∧ ClosesFrom src m p.cursor.index p.value.2

/-- A draft with nothing read is at the first token of its command. -/
def CommandDraft.Begun (start : Nat) (d : CommandDraft) (c : Cursor) : Prop :=
  start ≤ c.index ∧
    (c.index = start → d = .empty ∧ ∃ t rest, c.rest = t :: rest ∧ t.startsStatement = true)

/-- What a call returns lies between where it starts and where it ends, if its first token ends no line; a
command lies from where it starts on if what was read of it does. -/
def Reading.Laid (src : TokenSource) : Reading → Prop
  | ⟨.statements _ c, p⟩ => listLies src c.index p.cursor.index p.value
  | ⟨.statement _ c, p⟩ => p.value.Lies src c.index p.cursor.index
  | ⟨.block _ _ c, p⟩ => p.value.Lies src c.index p.cursor.index
  | ⟨.branches _ c, p⟩ => BranchesLie src c.index p
  | ⟨.conditional opener c, p⟩ =>
    opener.isNewline = false → (Statement.conditional p.value).Lies src c.index p.cursor.index
  | ⟨.compound opener c, p⟩ =>
    opener.isNewline = false → (Statement.compound p.value).Lies src c.index p.cursor.index
  | ⟨.command first start d c, p⟩ =>
    src.tokens[start]? = some first → d.Begun start c → d.Lies src start c.index →
      p.value.Lies src start p.cursor.index

theorem Token.not_isNewline_of_startsStatement {t : Token} (h : t.startsStatement = true) :
    t.isNewline = false := by
  simp only [Token.startsStatement, Bool.and_eq_true, Bool.not_eq_true'] at h
  exact Token.not_isNewline_of_not_isSeparator h.1

namespace ParserCall

variable {src : TokenSource}

theorem statements_laid (stop : Token → Bool) (c : Cursor) : (statements stop c).Keeps src (Reading.Laid src) := by
  have hle := c.le_index_skipSeparators
  have hnext : c.index ≤ c.skipSeparators.next.index := hle.trans (Nat.le_succ _)
  unfold Keeps
  rw [script]
  cases listStep stop c.skipSeparators.rest with
  | done => exact hle
  | stray t => exact fun more hmore => listLies.mono hmore.2 hnext le_rfl
  | pass => exact fun more hmore => listLies.mono hmore.2 hnext le_rfl
  | statement t => exact fun first hfirst more hmore => ⟨_, Statement.Lies.mono hfirst.2 hle le_rfl, hmore.2⟩

theorem statement_laid {t : Token} {c : Cursor} (h : (statement t c).Placed src) :
    (statement t c).Keeps src (Reading.Laid src) := by
  obtain ⟨hc, hhead, hstart⟩ := h
  have hline := Token.not_isNewline_of_startsStatement hstart
  unfold Keeps
  rw [script]
  split_ifs
  · exact fun p hp => hp.2 hline
  · exact fun p hp => hp.2 hline
  · obtain ⟨rest, hrest⟩ := List.head?_eq_some_iff.1 hhead
    exact fun p hp => hp.2 (hc.getElem? hhead) ⟨le_rfl, fun _ => ⟨rfl, t, rest, hrest, hstart⟩⟩
      (CommandDraft.lies_empty src _ _)

theorem block_laid {opener : Token} {kind : BlockKind} {c : Cursor} (h : (block opener kind c).Placed src) :
    (block opener kind c).Keeps src (Reading.Laid src) := by
  intro body hbody
  have hlies : listLies src (c.index + 1) body.cursor.index body.value :=
    listLies.mono hbody.2 c.next.le_index_params le_rfl
  exact Block.lies_iff.2 (closeBody_lies _ _ le_rfl (h.1.getElem? h.2) hlies hbody.1.1)

theorem branches_cons_lie {word : ConditionalWord} {branchWord : BranchWord} {start : Nat} {c : Cursor}
    {body : Parsed (List Statement)} {more : Parsed (List Branch × Option Token)} {problems : List Problem}
    (hbody : Reading.Laid src ⟨.statements (branchStop word branchWord) (branchHead branchWord c).2, body⟩)
    (hmore : Reading.Laid src ⟨.branches word body.cursor, more⟩) :
    BranchesLie src c.index ⟨(⟨branchWord, (branchHead branchWord c).1, body.value, start⟩ :: more.value.1,
      more.value.2), more.cursor, problems⟩ := by
  obtain ⟨m, hbranches, hcloser⟩ := hmore
  exact ⟨m, ⟨_, listLies.mono hbody (c.le_index_branchHead branchWord) le_rfl, hbranches⟩, hcloser⟩

theorem branches_laid {word : ConditionalWord} {c : Cursor} (hc : src.Holds c) :
    (branches word c).Keeps src (Reading.Laid src) := by
  have hle := c.le_index_skipSeparators
  unfold Keeps
  rw [script]
  cases h : branchStep word c.skipSeparators.rest with
  | done => exact ⟨_, hle, le_rfl, fun t ht => absurd ht (by simp)⟩
  | close t =>
    obtain ⟨rest, hrest, -⟩ := branchStep_close h
    refine ⟨_, hle, Nat.le_succ _, ?_⟩
    intro u hu
    obtain rfl := Option.some.inj hu
    exact ⟨_, le_rfl, Nat.lt_succ_self _, hc.skipSeparators.getElem? (by rw [hrest]; rfl)⟩
  | branch branchWord t =>
    intro body hbody more hmore
    have hcons : BranchesLie src c.skipSeparators.next.index
        ⟨(⟨branchWord, (branchHead branchWord c.skipSeparators.next).1, body.value, t.start⟩ :: more.value.1,
          more.value.2), more.cursor, body.problems ++ more.problems⟩ := branches_cons_lie hbody.2 hmore.2
    obtain ⟨m, hlies, hcloser⟩ := hcons
    exact ⟨m, hlies.mono (hle.trans (Nat.le_succ _)) le_rfl, hcloser⟩

section InOrder

variable (hsrc : src.InOrder)

include hsrc

/-- A conditional lies around its branches, which are cut if it is not closed. -/
theorem closeConditional_lies {opener : Token} {c : Cursor} (hopener : src.tokens[c.index]? = some opener)
    (hline : opener.isNewline = false) (line : List Token) {read : Parsed (List Branch × Option Token)}
    (hread : BranchesLie src c.next.index read) :
    let p := closeConditional src opener c.index line read
    (Statement.conditional p.value).Lies src c.index p.cursor.index := by
  obtain ⟨m, hbranches, hcloser⟩ := hread
  have hextent : ∀ j, c.index < j → Extent.Lies src c.index j
      ⟨opener.start, src.endBefore j opener.stop, c.index⟩ := by
    intro j hj
    obtain ⟨hend, hstop⟩ := hsrc.endsBy_endBefore hopener hline hj opener.stop
    exact ⟨le_rfl, hj, ⟨opener, hopener, rfl⟩, (hsrc.start_lt_stop hopener).trans_le hstop, hend⟩
  have hm : c.index + 1 ≤ m := hbranches.le
  unfold closeConditional
  split
  · rename_i t ht
    refine ⟨hextent _ (Nat.lt_of_lt_of_le hm hcloser.1), c.index, m, le_rfl, hopener, hbranches, ?_⟩
    rw [← ht]
    exact hcloser
  · have hcut := (hbranches.mono le_rfl hcloser.1).resync opener
    have hle : c.index + 1 ≤ _ := hcut.le
    rw [← index_getD_cursor] at hcut hle
    exact ⟨hextent _ hle, c.index, _, le_rfl, hopener, hcut, le_rfl, fun t ht => absurd ht (by simp)⟩

theorem conditional_laid {opener : Token} {c : Cursor} (h : (conditional opener c).Placed src) :
    (conditional opener c).Keeps src (Reading.Laid src) := by
  have hopener := h.1.getElem? h.2
  unfold Keeps
  rw [script]
  dsimp only
  split_ifs
  · intro read hread hline
    obtain ⟨m, hlies, hcloser⟩ : BranchesLie src (c.next.line false).2.skipSeparators.index read := hread.2
    have hle := (c.next.le_index_line false).trans (c.next.line false).2.le_index_skipSeparators
    exact closeConditional_lies hsrc hopener hline _ ⟨m, hlies.mono hle le_rfl, hcloser⟩
  · exact fun body hbody more hmore hline =>
      closeConditional_lies hsrc hopener hline _ (branches_cons_lie hbody.2 hmore.2)

theorem compound_laid {opener : Token} {c : Cursor} (h : (compound opener c).Placed src) :
    (compound opener c).Keeps src (Reading.Laid src) := by
  have hopener := h.1.getElem? h.2
  intro body hbody hline
  have hlies : listLies src (c.index + 1) body.cursor.index body.value :=
    listLies.mono hbody.2 (c.next.le_index_line _) le_rfl
  have hinside := closeBody_lies (·.isKeyword ["end"]) (.openKeyword opener.text) (le_refl c.index)
    hopener hlies hbody.1.1
  refine ⟨?_, hinside⟩
  obtain ⟨k, m, hk, -, hin, hm, -⟩ := hinside
  have hlt : c.index < _ := Nat.lt_of_lt_of_le (Nat.lt_of_le_of_lt hk hin.le) hm
  obtain ⟨hstop, hle⟩ := hsrc.endsBy_endBefore hopener hline hlt opener.stop
  exact ⟨le_rfl, hlt, ⟨opener, hopener, rfl⟩, (hsrc.start_lt_stop hopener).trans_le hle, hstop⟩

omit hsrc in
/-- The first step of a command takes something, so a command that is done has a token. -/
theorem lt_of_begun {start : Nat} {d : CommandDraft} {c : Cursor} (hbegun : d.Begun start c)
    (hstep : d.step c.rest = .done) : start < c.index := by
  rcases Nat.lt_or_eq_of_le hbegun.1 with hlt | heq
  · exact hlt
  · obtain ⟨rfl, t, rest, hrest, ht⟩ := hbegun.2 heq.symm
    rw [hrest] at hstep
    rcases CommandDraft.step_empty ht rest with ⟨kind, h⟩ | h | h | h <;>
      exact absurd (h.symm.trans hstep) CommandStep.noConfusion

/-- A command that ends in a modifier, which is read outside brackets only. -/
theorem modifier_lies {first t : Token} {start : Nat} {d : CommandDraft} {c : Cursor} (hc : src.Holds c)
    (hstep : d.step c.rest = .modifier t) (hfirst : src.tokens[start]? = some first) (hle : start ≤ c.index)
    (hd : d.Lies src start c.index) :
    let p := (d.addModifier t (c.next.line false).1).finish src first start (c.next.line false).2
    p.value.Lies src start p.cursor.index := by
  have hline : c.index + 1 ≤ (c.next.line false).2.index := c.next.le_index_line false
  have hlt : start < (c.next.line false).2.index := Nat.lt_of_lt_of_le (Nat.lt_succ_of_le hle) hline
  have hopeners := CommandDraft.openers_of_modifier hstep
  have hwide : d.Lies src start (c.next.line false).2.index := hd.mono ((Nat.le_succ _).trans hline)
  dsimp only
  rw [CommandDraft.finish_nil src first start (c.next.line false).2
    (d := d.addModifier t (c.next.line false).1) hopeners]
  refine CommandDraft.build_lies hsrc hfirst hlt ?_ hwide.block ?_
  · intro u hu
    obtain ⟨k, hk, hlt', htok⟩ := hwide.head u (List.mem_of_mem_head? hu)
    exact ⟨hsrc.start_le_start hfirst htok hk, hsrc.start_lt_stop htok, hsrc.endsBy htok hlt'⟩
  · intro m hm u hu
    obtain rfl := Option.some.inj hm
    exact Cursor.line_endsBy hsrc hc.next false u (List.mem_of_mem_getLast? hu)

theorem command_laid {first : Token} {start : Nat} {d : CommandDraft} {c : Cursor} (hc : src.Holds c) :
    (command first start d c).Keeps src (Reading.Laid src) := by
  -- the rest of a command begins right of a token
  have hbegun : ∀ (d' : CommandDraft) (c' : Cursor), start ≤ c.index → c.index + 1 ≤ c'.index →
      d'.Begun start c' := fun d' c' hle hlt => ⟨by omega, fun h => by omega⟩
  unfold Keeps
  rw [script]
  cases hstep : d.step c.rest with
  | done => exact fun hfirst hbegun hd => hd.finish hsrc hfirst rfl (lt_of_begun hbegun hstep)
  | skip =>
    rintro more hmore hfirst ⟨hle, -⟩ hd
    exact hmore.2 hfirst (hbegun _ _ hle le_rfl) (hd.mono (Nat.le_succ _))
  | push t =>
    obtain ⟨⟨rest, hrest⟩, -⟩ := CommandDraft.step_token (t := t) (by rw [hstep]; rfl)
    have ht : src.tokens[c.index]? = some t := hc.getElem? (by rw [hrest]; rfl)
    rintro more hmore hfirst ⟨hle, -⟩ hd
    exact hmore.2 hfirst (hbegun _ _ hle le_rfl) (hd.push ht hle)
  | modifier t =>
    rintro hfirst ⟨hle, -⟩ hd
    exact modifier_lies hsrc hc hstep hfirst hle hd
  | conditional t =>
    rintro nested hnested more hmore hfirst ⟨hle, -⟩ hd
    have hend : c.index + 1 ≤ nested.cursor.index := hnested.1.2
    exact hmore.2 hfirst (hbegun _ _ hle hend) (hd.addRun hc hle ((Nat.le_succ _).trans hend))
  | compound t =>
    rintro nested hnested more hmore hfirst ⟨hle, -⟩ hd
    have hend : c.index + 1 ≤ nested.cursor.index := hnested.1.2
    exact hmore.2 hfirst (hbegun _ _ hle hend) (hd.addRun hc hle ((Nat.le_succ _).trans hend))
  | block t kind =>
    intro block hblock
    have hend : c.index + 1 ≤ block.cursor.index := hblock.1.2
    have hadd : start ≤ c.index → d.Lies src start c.index →
        (d.addBlock block.value).Lies src start block.cursor.index := fun hle hd =>
      (hd.mono ((Nat.le_succ _).trans hend)).addBlock (Block.Lies.mono hblock.2 hle le_rfl)
    dsimp only
    split
    · rintro more hmore hfirst ⟨hle, -⟩ hd
      exact hmore.2 hfirst (hbegun _ _ hle hend) (hadd hle hd)
    · rintro hfirst ⟨hle, -⟩ hd
      exact (hadd hle hd).finish hsrc hfirst rfl (Nat.lt_of_lt_of_le (Nat.lt_succ_of_le hle) hend)

theorem keeps_laid {call : ParserCall} (hp : call.Placed src) : call.Keeps src (Reading.Laid src) := by
  cases call with
  | statements stop c => exact statements_laid stop c
  | statement t c => exact statement_laid hp
  | block opener kind c => exact block_laid hp
  | branches word c => exact branches_laid hp
  | conditional opener c => exact conditional_laid hsrc hp
  | compound opener c => exact compound_laid hsrc hp
  | command first start d c => exact command_laid hsrc hp.1

/-- Every call returns what lies between where it starts and ends. -/
theorem EndsIn.laid {call : ParserCall} {p : Parsed call.Result} {log : List Reading}
    (h : call.EndsIn src p log) (hp : call.Placed src) : Reading.Laid src ⟨call, p⟩ :=
  h.satisfies (fun _ hp => keeps_laid hsrc hp) hp

end InOrder

end ParserCall

/-- The statements of a file lie one after another among its tokens. -/
theorem Program.listLies_ofText (text : Text) :
    ∃ j, listLies (TokenSource.ofText text) 0 j (Program.ofText text).statements := by
  obtain ⟨log, hends⟩ := (TokenSource.ofText text).exists_endsIn_parsed
  rw [Program.statements_ofText]
  exact ⟨_, hends.laid (TokenSource.inOrder_ofText text) ((TokenSource.ofText text).holds_cursor 0)⟩

end Cookbook
