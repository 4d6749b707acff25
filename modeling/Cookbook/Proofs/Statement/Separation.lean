import Cookbook.Proofs.Lists
import Cookbook.Proofs.Statement.Layout

/-!
Statements do not overlap. The statements of each list in a tree start at growing tokens and end
before the next one starts, and those of a closed body lie between its opener and its closer.

* `ListIn` finds the lists of statements of a tree, at any depth;
* `Separated` and `Block.Holds` are the two properties;
* `listLies.separated` and `Block.Lies.holds` derive them from where the statements lie.
-/

namespace Cookbook

/-! ### Lists at any depth -/

/-- The list is the outermost one of a tree, or the body of a block, a branch or a compound statement
in it; the blocks within heads are left out. -/
inductive ListIn (inner : List Statement) : List Statement → Prop
  | here : ListIn inner inner
  | block {body : List Statement} {command : Command} {block : Block}
      (h : Statement.command command ∈ body) (hblock : command.block = some block)
      (hin : ListIn inner block.body) : ListIn inner body
  | branch {body : List Statement} {outer : Conditional} {b : Branch}
      (h : Statement.conditional outer ∈ body) (hb : b ∈ outer.branches)
      (hin : ListIn inner b.body) : ListIn inner body
  | compound {body : List Statement} {outer : Compound} (h : Statement.compound outer ∈ body)
      (hin : ListIn inner outer.body) : ListIn inner body

theorem ListIn.eq_nil {inner : List Statement} (h : ListIn inner []) : inner = [] := by
  cases h with
  | here => rfl
  | block hmem => exact absurd hmem List.not_mem_nil
  | branch hmem => exact absurd hmem List.not_mem_nil
  | compound hmem => exact absurd hmem List.not_mem_nil

/-- What stands in a list that stands in another stands in that. -/
theorem ListIn.trans {inner body outer : List Statement} (h : ListIn inner body) (hin : ListIn body outer) :
    ListIn inner outer := by
  induction hin with
  | here => exact h
  | block hmem hblock _ ih => exact .block hmem hblock ih
  | branch hmem hb _ ih => exact .branch hmem hb ih
  | compound hmem _ ih => exact .compound hmem ih

/-- The statements start at growing tokens, take something each, and end before the next starts. -/
structure Separated (body : List Statement) : Prop where
  firstIndex : body.Pairwise fun s s' => s.extent.firstIndex < s'.extent.firstIndex
  nonempty : ∀ s ∈ body, s.extent.start < s.extent.stop
  apart : body.Pairwise fun s s' => s.extent.stop ≤ s'.extent.start

/-- The statements of the block, if it is closed, lie between its opener and its closer. -/
def Block.Holds (b : Block) : Prop :=
  ∀ closer ∈ b.closer, ∀ s ∈ b.body,
    b.opener.stop ≤ s.extent.start ∧ s.extent.stop ≤ closer.start

/-! ### From indices to offsets -/

section Lies

variable {src : TokenSource} {i j m : Nat}

theorem listLies.mem {body : List Statement} {s : Statement} (h : listLies src i j body)
    (hs : s ∈ body) : s.Lies src i j := by
  induction body generalizing i with
  | nil => exact absurd hs List.not_mem_nil
  | cons s' rest ih =>
    obtain ⟨m, hs', hrest⟩ := h
    rcases List.mem_cons.1 hs with rfl | hs
    · exact hs'.mono le_rfl hrest.le
    · exact (ih hrest hs).mono (hs'.extent.lower.trans hs'.extent.upper.le) le_rfl

theorem branchesLie.mem {branches : List Branch} {b : Branch} (h : branchesLie src i j branches)
    (hb : b ∈ branches) : listLies src i j b.body := by
  induction branches generalizing i with
  | nil => exact absurd hb List.not_mem_nil
  | cons b' rest ih =>
    obtain ⟨m, hbody, hrest⟩ := branchesLie_cons.1 h
    rcases List.mem_cons.1 hb with rfl | hb
    · exact hbody.mono le_rfl hrest.le
    · exact (ih hrest hb).mono hbody.le le_rfl

/-- Of two statements of a list, the first lies before an index and the second from there on. -/
theorem listLies.pairwise {body : List Statement} (h : listLies src i j body) :
    body.Pairwise fun s s' => ∃ m, s.Lies src i m ∧ s'.Lies src m j := by
  induction body generalizing i with
  | nil => exact .nil
  | cons s rest ih =>
    obtain ⟨m, hs, hrest⟩ := h
    refine .cons (fun s' hs' => ⟨m, hs, hrest.mem hs'⟩) ((ih hrest).imp ?_)
    rintro a b ⟨n, ha, hb⟩
    exact ⟨n, ha.mono (hs.extent.lower.trans hs.extent.upper.le) le_rfl, hb⟩

/-- What stands inside lies from the opener on, and ends by the same index. -/
theorem Encloses.inside {opener : Token} {closer : Option Token} {P : Nat → Nat → Prop}
    (h : Encloses src i j opener closer P) : ∃ k m, i ≤ k ∧ m ≤ j ∧ P (k + 1) m := by
  obtain ⟨k, m, hik, -, hinside, hcloser⟩ := h
  exact ⟨k, m, hik, hcloser.1, hinside⟩

theorem listLies.of_listIn {inner body : List Statement} (hin : ListIn inner body) :
    ∀ {i j}, listLies src i j body → listLies src i j inner := by
  induction hin with
  | here => exact id
  | block h hblock _ ih =>
    intro i j hbody
    obtain ⟨hextent, hb⟩ := Command.lies_iff.1 (hbody.mem h)
    obtain ⟨k, m, hk, hm, hlies⟩ := (Block.lies_iff.1 (hb _ hblock)).inside
    exact (ih hlies).mono (by have := hextent.lower; omega) hm
  | branch h hb _ ih =>
    intro i j hbody
    obtain ⟨hextent, hb'⟩ := Statement.lies_conditional.1 (hbody.mem h)
    obtain ⟨k, m, hk, hm, hlies⟩ := hb'.inside
    exact (ih (hlies.mem hb)).mono (by have := hextent.lower; omega) hm
  | compound h _ ih =>
    intro i j hbody
    obtain ⟨hextent, hb⟩ := Statement.lies_compound.1 (hbody.mem h)
    obtain ⟨k, m, hk, hm, hlies⟩ := hb.inside
    exact (ih hlies).mono (by have := hextent.lower; omega) hm

/-- An extent that lies before an index ends before one that lies from there on. -/
theorem Extent.Lies.stop_le_start {e e' : Extent} (h : e.Lies src i m) (h' : e'.Lies src m j) :
    e.stop ≤ e'.start := by
  obtain ⟨t, ht, hstart⟩ := h'.first
  rw [← hstart]
  exact h.stop _ t h'.lower ht

/-- What stands in the block of a command, at any depth, lies after the first token of the command. -/
theorem Command.Lies.nested {c : Command} {b : Block} {body : List Statement} {s : Statement}
    (h : c.Lies src i j) (hb : c.block = some b) (hin : ListIn body b.body) (hs : s ∈ body) :
    s.extent.Lies src (c.extent.firstIndex + 1) j := by
  obtain ⟨k, m, hk, hm, hlies⟩ := (Block.lies_iff.1 ((Command.lies_iff.1 h).2 b hb)).inside
  exact ((hlies.of_listIn hin).mem hs).extent.mono (Nat.succ_le_succ hk) hm

theorem Extent.Lies.start_lt_nested (hsrc : src.InOrder) {e e' : Extent} {k : Nat}
    (h : e.Lies src i k) (h' : e'.Lies src (e.firstIndex + 1) j) : e.start < e'.start := by
  obtain ⟨t, ht, hstart⟩ := h.first
  obtain ⟨t', ht', hstart'⟩ := h'.first
  have hlt := hsrc.start_lt_stop ht
  have hle := hsrc.stop_le_start ht ht' h'.lower
  omega

theorem listLies.separated {body : List Statement} (h : listLies src i j body) : Separated body where
  firstIndex := by
    refine h.pairwise.imp ?_
    rintro s s' ⟨m, hs, hs'⟩
    exact hs.extent.upper.trans_le hs'.extent.lower
  nonempty := fun s hs => (h.mem hs).extent.nonempty
  apart := by
    refine h.pairwise.imp ?_
    rintro s s' ⟨m, hs, hs'⟩
    exact hs.extent.stop_le_start hs'.extent

/-- What stands in a block, at any depth, lies after its opener, and before its closer if it has one. -/
theorem Block.Lies.between (hsrc : src.InOrder) {b : Block} (h : b.Lies src i j) {body : List Statement}
    (hin : ListIn body b.body) {s : Statement} (hs : s ∈ body) :
    b.opener.stop ≤ s.extent.start ∧ ∀ closer ∈ b.closer, s.extent.stop ≤ closer.start := by
  obtain ⟨k, m, -, hopener, hbody, -, hclosers⟩ := Block.lies_iff.1 h
  have hlies := ((hbody.of_listIn hin).mem hs).extent
  obtain ⟨t, ht, hstart⟩ := hlies.first
  constructor
  · rw [← hstart]
    exact hsrc.stop_le_start hopener ht hlies.lower
  · intro closer hcloser
    obtain ⟨n, hmn, -, hn⟩ := hclosers closer hcloser
    exact hlies.stop n closer hmn hn

theorem Block.Lies.holds (hsrc : src.InOrder) {b : Block} (h : b.Lies src i j) : b.Holds := by
  intro closer hcloser s hs
  obtain ⟨hstart, hstop⟩ := h.between hsrc .here hs
  exact ⟨hstart, hstop closer hcloser⟩

end Lies

end Cookbook
