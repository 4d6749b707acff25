import Cookbook.Condition.Render
import Cookbook.Proofs.Condition.Binding

/-!
Where the parser groups a condition as it was written. The parser knows two levels of joins and a
negation of one part; a reading has the words `and`, `or` and `not` on levels of their own. The two
agree on the truth of a condition exactly where no negation stands before a join, no disjunction is a
bare part of a conjunction and the sides of comparisons are operands.

* `groupsAlike` says so of a reading;
* `Sees` relates a reading to the truth of its parts, of the parser's and of its own, over all ways to
  choose its operands one by one;
* `holds_eq_of_groupsAlike` and `exists_sees_ne` are the two halves of the result over `Sees`,
  `exists_truths` and `exists_valuation` carry them over to valuations.
-/

namespace Cookbook

open Phrase

/-! ### Chains of truth values -/

namespace Chain

/-- Whether a chain is a single conjunction. -/
def isRow {α : Type} : Chain α → Bool
  | last _ => true
  | both _ _ rest => rest.isRow
  | either _ _ _ => false

/-- A chain with one more condition in its last conjunction. -/
def trim (x : Bool) : Chain Bool → Chain Bool
  | last b => last (b && x)
  | both b join rest => both b join (rest.trim x)
  | either b join rest => either b join (rest.trim x)

/-- A chain whose first part is negated, if asked for. -/
def flip (n : Bool) (c : Chain Bool) : Chain Bool := c.mapHead (· ^^ n)

/-- Whether the first part is the given one and all others hold. -/
def Starts (x : Bool) : Chain Bool → Prop
  | last b => b = x
  | both b _ rest => b = x ∧ rest.Starts true
  | either b _ rest => b = x ∧ rest.Starts true

section Bool

variable {c d : Chain Bool} {x n : Bool} {join : Token} {link : Link}

@[simp] theorem holds_last (b : Bool) : (last b).holds = b := Bool.or_false b

@[simp] theorem flip_last (n b : Bool) : (last b).flip n = last (b ^^ n) := rfl

theorem holds_append_either : (c.append (.either join) d).holds = (c.holds || d.holds) := by
  have hboth : (c.append (.either join) d).lead = c.lead ∧
      (c.append (.either join) d).later = (c.later || d.holds) := by
    induction c with
    | last b => exact ⟨rfl, rfl⟩
    | both b j rest ih => exact ⟨congrArg (b && ·) ih.1, ih.2⟩
    | either b j rest ih =>
      refine ⟨rfl, ?_⟩
      rw [append, later, ih.1, ih.2, later, Bool.or_assoc]
  rw [holds, hboth.1, hboth.2, ← Bool.or_assoc]
  rfl

/-- Only the last conjunction of the first chain meets the first one of the second. -/
theorem holds_append_both : (c.append (.both join) d).holds = ((c.trim d.lead).holds || d.later) := by
  have hboth : (c.append (.both join) d).lead = (c.trim d.lead).lead ∧
      (c.append (.both join) d).later = ((c.trim d.lead).later || d.later) := by
    induction c with
    | last b => exact ⟨rfl, rfl⟩
    | both b j rest ih => exact ⟨congrArg (b && ·) ih.1, ih.2⟩
    | either b j rest ih =>
      refine ⟨rfl, ?_⟩
      rw [append, later, ih.1, ih.2, trim, later, Bool.or_assoc]
  rw [holds, hboth.1, hboth.2, ← Bool.or_assoc]
  rfl

theorem trim_true : c.trim true = c := by
  induction c with
  | last b => rw [trim, Bool.and_true]
  | both b j rest ih => rw [trim, ih]
  | either b j rest ih => rw [trim, ih]

theorem holds_trim (h : c.holds = false) : (c.trim x).holds = false := by
  cases x with
  | true => rwa [trim_true]
  | false =>
    have hboth : (c.lead = false → (c.trim false).lead = false) ∧
        (c.later = false → (c.trim false).later = false) := by
      clear h
      induction c with
      | last b => simp [trim, lead, later]
      | both b j rest ih =>
        refine ⟨fun h => ?_, ih.2⟩
        rcases Bool.and_eq_false_iff.1 h with rfl | h
        · rfl
        · simp [trim, lead, ih.1 h]
      | either b j rest ih =>
        refine ⟨id, fun h => ?_⟩
        obtain ⟨hlead, hlater⟩ := Bool.or_eq_false_iff.1 h
        simp [trim, later, ih.1 hlead, ih.2 hlater]
    obtain ⟨hlead, hlater⟩ := Bool.or_eq_false_iff.1 h
    rw [holds, hboth.1 hlead, hboth.2 hlater]
    rfl

theorem later_row (h : c.isRow = true) : c.later = false := by
  induction c with
  | last b => rfl
  | both b j rest ih => exact ih h
  | either b j rest ih => simp [isRow] at h

theorem holds_row (h : c.isRow = true) : c.holds = c.lead := by
  rw [holds, later_row h, Bool.or_false]

theorem holds_trim_row (h : c.isRow = true) : (c.trim x).holds = (c.holds && x) := by
  have hboth : (c.trim x).lead = (c.lead && x) ∧ (c.trim x).later = false := by
    induction c with
    | last b => exact ⟨rfl, rfl⟩
    | both b j rest ih => exact ⟨by rw [trim, lead, (ih h).1, lead, Bool.and_assoc], (ih h).2⟩
    | either b j rest ih => simp [isRow] at h
  rw [holds, hboth.1, hboth.2, Bool.or_false, holds_row h]

theorem holds_append_row (hc : c.isRow = true) (hd : d.isRow = true) :
    (c.append (.both join) d).holds = (c.holds && d.holds) := by
  rw [holds_append_both, holds_trim_row hc, later_row hd, Bool.or_false, holds_row hd]

theorem lead_trim (h : c.isRow = false) : (c.trim x).lead = c.lead := by
  induction c with
  | last b => simp [isRow] at h
  | both b j rest ih => rw [trim, lead, ih h, lead]
  | either b j rest ih => rfl

theorem holds_append_both_of_eq {b : Bool} (hc : c.holds = b) (hd : d.holds = b) :
    (c.append (.both join) d).holds = b := by
  rw [holds_append_both]
  cases b with
  | false =>
    obtain ⟨-, hlater⟩ := Bool.or_eq_false_iff.1 hd
    rw [holds_trim hc, hlater]
    rfl
  | true =>
    rcases Bool.or_eq_true_iff.1 hd with hlead | hlater
    · rw [hlead, trim_true, hc]
      rfl
    · rw [hlater, Bool.or_true]

/-! ### The first part -/

@[simp] theorem flip_false : c.flip false = c := by
  cases c <;> simp [flip, mapHead]

theorem flip_not : (c.mapHead (!·)).flip n = c.flip (!n) := by
  cases c <;> simp [flip, mapHead]

theorem flip_append : (c.append link d).flip n = (c.flip n).append link d := by
  cases c with
  | last b => cases link <;> rfl
  | both b j rest => rfl
  | either b j rest => rfl

theorem isRow_mapHead (f : Bool → Bool) : (c.mapHead f).isRow = c.isRow := by
  cases c <;> rfl

theorem isRow_append_both : (c.append (.both join) d).isRow = (c.isRow && d.isRow) := by
  induction c with
  | last b => rfl
  | both b j rest ih => exact ih
  | either b j rest ih => rfl

theorem isRow_append_either : (c.append (.either join) d).isRow = false := by
  induction c with
  | last b => rfl
  | both b j rest ih => exact ih
  | either b j rest ih => rfl

theorem Starts.append (hc : c.Starts x) (hd : d.Starts true) : (c.append link d).Starts x := by
  induction c generalizing x with
  | last b => cases link <;> exact ⟨hc, hd⟩
  | both b j rest ih => exact ⟨hc.1, ih hc.2⟩
  | either b j rest ih => exact ⟨hc.1, ih hc.2⟩

theorem Starts.not (hc : c.Starts x) : (c.mapHead (!·)).Starts (!x) := by
  cases c with
  | last b => exact congrArg _ hc
  | both b j rest => exact ⟨congrArg _ hc.1, hc.2⟩
  | either b j rest => exact ⟨congrArg _ hc.1, hc.2⟩

theorem Starts.truth (hc : c.Starts true) : c.lead = true ∧ (c.isRow = false → c.later = true) := by
  induction c with
  | last b => exact ⟨hc, by simp [isRow]⟩
  | both b j rest ih =>
    obtain ⟨rfl, hrest⟩ := hc
    exact ⟨(ih hrest).1, (ih hrest).2⟩
  | either b j rest ih =>
    obtain ⟨rfl, hrest⟩ := hc
    exact ⟨rfl, fun _ => by simp [later, (ih hrest).1]⟩

end Bool

end Chain

namespace Binding

/-! ### Readings that are grouped alike -/

/-- Whether the reading is an operand, perhaps in parentheses. -/
def isPlain : Reading → Bool
  | .leaf _ => true
  | .group _ t _ => isPlain t
  | _ => false

/-- Whether the reading is an operand or a comparison of operands. -/
def isPlainAtom : Reading → Bool
  | .leaf _ => true
  | .join l _ r => isPlain l && isPlain r
  | _ => false

/-- Whether no disjunction stands in the reading outside parentheses. -/
def isRow : Reading → Bool
  | .join l s r =>
    match s.link? with
    | some (.both _) => isRow l && isRow r
    | some (.either _) => false
    | none => true
  | .before _ t => isRow t
  | .after t _ => isRow t
  | .leaf _ => true
  | .group _ _ _ => true

/-- Whether the parser groups a reading as it is: comparisons are of operands, an odd number of
negations stands before no join, and no part of a conjunction has a disjunction outside parentheses. -/
def groupsAlike : (negated : Bool) → Reading → Bool
  | _, .leaf _ => true
  | _, .group _ t _ => groupsAlike false t
  | negated, .join l s r =>
    match s.link? with
    | some (.both _) => !negated && isRow l && isRow r && groupsAlike false l && groupsAlike false r
    | some (.either _) => !negated && groupsAlike false l && groupsAlike false r
    | none => isPlain l && isPlain r
  | negated, .before _ t => groupsAlike (!negated) t
  | negated, .after t _ => groupsAlike negated t

/-- What can be seen of a reading when the truth of its operands is chosen one by one: the truth of the
parts that the parser reads, and its own. What a comparison of other things than operands says, the
parser does not know. -/
inductive Sees : Reading → Chain Bool → Bool → Prop
  | leaf (s : Symbol) (b : Bool) : Sees (.leaf s) (.last b) b
  | group {opener t closer c v} (h : Sees t c v) : Sees (.group opener t closer) (.last c.holds) v
  | plain {l s r} (hs : s.link? = none) (b : Bool) : Sees (.join l s r) (.last b) b
  | odd {l s r} (hs : s.link? = none) (h : (isPlain l && isPlain r) = false) (b b' : Bool) :
      Sees (.join l s r) (.last b) b'
  | joined {l s r link c d v w} (hs : s.link? = some link) (hl : Sees l c v) (hr : Sees r d w) :
      Sees (.join l s r) (c.append link d) (link.truth v w)
  | before {s t c v} (h : Sees t c v) : Sees (.before s t) (c.mapHead (!·)) (!v)

section Sees

variable {k : Nat} {t : Reading} {c : Chain Bool} {v n : Bool}

theorem Sees.isRow (h : Sees t c v) : c.isRow = isRow t := by
  induction h with
  | leaf | group => rfl
  | plain hs | odd hs =>
    rw [Binding.isRow, hs]
    rfl
  | @joined l s r link c d v w hs _ _ ihl ihr =>
    rw [Binding.isRow, hs]
    cases link with
    | both join => rw [Chain.isRow_append_both, ihl, ihr]
    | either join => exact Chain.isRow_append_either
  | before _ ih => rw [Chain.isRow_mapHead, ih, Binding.isRow]

/-- Where the parser groups a reading as it is, it sees its truth. -/
theorem holds_eq_of_groupsAlike (h : Sees t c v) (halike : groupsAlike n t = true) :
    (c.flip n).holds = (v ^^ n) := by
  induction h generalizing n with
  | leaf s b => simp
  | group _ ih =>
    have hinner := ih (n := false) halike
    rw [Chain.flip_false, Bool.xor_false] at hinner
    simp [hinner]
  | plain hs b => simp
  | odd hs hodd b b' =>
    rw [groupsAlike, hs] at halike
    exact absurd (hodd.symm.trans halike) (by decide)
  | @joined l s r link c d v w hs hl hr ihl ihr =>
    cases link with
    | both join =>
      simp only [groupsAlike, hs, Bool.and_eq_true, Bool.not_eq_true'] at halike
      obtain ⟨⟨⟨⟨rfl, hrowl⟩, hrowr⟩, hl'⟩, hr'⟩ := halike
      have hc := ihl hl'
      have hd := ihr hr'
      rw [Chain.flip_false, Bool.xor_false] at hc hd ⊢
      rw [Chain.holds_append_row (hl.isRow.trans hrowl) (hr.isRow.trans hrowr), hc, hd, Link.truth]
    | either join =>
      simp only [groupsAlike, hs, Bool.and_eq_true, Bool.not_eq_true'] at halike
      obtain ⟨⟨rfl, hl'⟩, hr'⟩ := halike
      have hc := ihl hl'
      have hd := ihr hr'
      rw [Chain.flip_false, Bool.xor_false] at hc hd ⊢
      rw [Chain.holds_append_either, hc, hd, Link.truth]
  | before _ ih =>
    rw [Chain.flip_not, ih halike]
    simp

/-! ### Choosing the truth of the operands -/

theorem isRow_of_fits (h : Fits grammar k t) (hk : 3 ≤ k) : isRow t = true := by
  refine fits_ind (motive := fun k t => 3 ≤ k → isRow t = true) (fun _ _ _ => rfl)
    (fun _ _ _ _ _ _ _ _ _ => rfl) (fun _ _ _ _ _ _ _ _ _ _ _ _ => rfl) ?joined
    (fun _ _ _ _ _ ih _ => ih (by omega)) ?word h hk
  case joined =>
    intro k sign token content link l r hlink hlevel _ _ ihl ihr hk
    cases sign with
    | both =>
      simp only [isRow, Symbol.link?, Bool.and_eq_true]
      exact ⟨ihl le_rfl, ihr (by decide)⟩
    | either | and | or =>
      simp only [Sign.level] at hlevel
      omega
    | bang | not | compare => simp [Symbol.link?] at hlink
  case word =>
    intro k token content t hlevel _ _ hk
    omega

theorem isRow_sides {sign : Sign} {token : Token} {content : token.content = sign.content} {join : Token}
    {l r : Reading} (hlink : (Symbol.sign sign token content).link? = some (.both join))
    (hlevel : 1 ≤ sign.level) (hl : Fits grammar sign.level l) (hr : Fits grammar (sign.level + 1) r) :
    isRow l = true ∧ isRow r = true := by
  cases sign with
  | both => exact ⟨isRow_of_fits hl (by decide), isRow_of_fits hr (by decide)⟩
  | and => exact absurd hlevel (by decide)
  | either | or | bang | not | compare => simp [Symbol.link?] at hlink

/-- The operands can be chosen so that the parser's truth and that of the reading are the given one,
also under a negation. -/
theorem exists_sees (h : Fits grammar k t) (n b : Bool) (hn : n = true → 1 ≤ k) :
    ∃ c v, Sees t c v ∧ (c.flip n).holds = b ∧ (v ^^ n) = b := by
  refine fits_ind (motive := fun k t => ∀ n b : Bool, (n = true → 1 ≤ k) →
    ∃ c v, Sees t c v ∧ (c.flip n).holds = b ∧ (v ^^ n) = b) ?operand ?group ?compare ?joined
    ?bang ?word h n b hn
  case operand =>
    intro k o n b _
    exact ⟨_, _, .leaf _ (b ^^ n), by simp, by simp⟩
  case group =>
    intro k opener hopener t closer hcloser _ ih n b _
    obtain ⟨c, v, hsees, hc, hv⟩ := ih false (b ^^ n) (by simp)
    rw [Chain.flip_false] at hc
    rw [Bool.xor_false] at hv
    exact ⟨_, _, .group hsees, by simp [hc], by simp [hv]⟩
  case compare =>
    intro k op token content l r _ _ _ _ _ n b _
    exact ⟨_, _, .plain rfl (b ^^ n), by simp, by simp⟩
  case joined =>
    intro k sign token content link l r hlink hlevel hl hr ihl ihr n b hn
    cases n with
    | false =>
      obtain ⟨c, v, hseesl, hc, hv⟩ := ihl false b (by simp)
      obtain ⟨d, w, hseesr, hd, hw⟩ := ihr false b (by simp)
      rw [Chain.flip_false] at hc hd
      rw [Bool.xor_false] at hv hw
      subst hv hw
      cases link with
      | both join =>
        refine ⟨_, _, .joined hlink hseesl hseesr, ?_, by simp⟩
        rw [Chain.flip_false, Chain.holds_append_both_of_eq hc hd]
      | either join =>
        refine ⟨_, _, .joined hlink hseesl hseesr, ?_, by simp⟩
        rw [Chain.flip_false, Chain.holds_append_either, hc, hd, Bool.or_self]
    | true =>
      -- the negation goes to the first part, and the other side decides nothing
      have hpos : 1 ≤ sign.level := (hn rfl).trans hlevel
      obtain ⟨c, v, hseesl, hc, hv⟩ := ihl true b fun _ => hpos
      cases link with
      | both join =>
        obtain ⟨-, hrow⟩ := isRow_sides hlink hpos hl hr
        obtain ⟨d, w, hseesr, hd, hw⟩ := ihr false true (by simp)
        rw [Chain.flip_false] at hd
        rw [Bool.xor_false] at hw
        rw [← hseesr.isRow] at hrow
        refine ⟨_, _, .joined hlink hseesl hseesr, ?_, by rw [hw, Link.truth, Bool.and_true, hv]⟩
        rw [Chain.flip_append, Chain.holds_append_both, ← Chain.holds_row hrow, hd, Chain.trim_true,
          Chain.later_row hrow, Bool.or_false, hc]
      | either join =>
        obtain ⟨d, w, hseesr, hd, hw⟩ := ihr false false (by simp)
        rw [Chain.flip_false] at hd
        rw [Bool.xor_false] at hw
        refine ⟨_, _, .joined hlink hseesl hseesr, ?_, by rw [hw, Link.truth, Bool.or_false, hv]⟩
        rw [Chain.flip_append, Chain.holds_append_either, hd, Bool.or_false, hc]
  case bang =>
    intro k token content t _ ih n b _
    obtain ⟨c, v, hsees, hc, hv⟩ := ih (!n) b (by omega)
    exact ⟨_, _, .before hsees, by rw [Chain.flip_not, hc], by rw [← hv]; simp⟩
  case word =>
    intro k token content t _ _ ih n b _
    obtain ⟨c, v, hsees, hc, hv⟩ := ih (!n) b (by omega)
    exact ⟨_, _, .before hsees, by rw [Chain.flip_not, hc], by rw [← hv]; simp⟩

theorem exists_agree (h : Fits grammar k t) (b : Bool) : ∃ c, Sees t c b ∧ c.holds = b := by
  obtain ⟨c, v, hsees, hc, hv⟩ := exists_sees h false b (by simp)
  rw [Chain.flip_false] at hc
  rw [Bool.xor_false] at hv
  subst hv
  exact ⟨c, hsees, hc⟩

/-- The operands can be chosen so that all parts hold, the first one perhaps apart. -/
theorem exists_starts (h : Fits grammar k t) (x : Bool) : ∃ c v, Sees t c v ∧ c.Starts x := by
  refine fits_ind (motive := fun _ t => ∀ x, ∃ c v, Sees t c v ∧ c.Starts x) ?operand ?group ?compare
    ?joined ?bang ?word h x
  case operand =>
    intro k o x
    exact ⟨_, _, .leaf _ x, rfl⟩
  case group =>
    intro k opener hopener t closer hcloser ht _ x
    obtain ⟨c, hsees, hc⟩ := exists_agree ht x
    exact ⟨_, _, .group hsees, hc⟩
  case compare =>
    intro k op token content l r _ _ _ _ _ x
    exact ⟨_, _, .plain rfl x, rfl⟩
  case joined =>
    intro k sign token content link l r hlink _ _ _ ihl ihr x
    obtain ⟨c, v, hseesl, hc⟩ := ihl x
    obtain ⟨d, w, hseesr, hd⟩ := ihr true
    exact ⟨_, _, .joined hlink hseesl hseesr, hc.append hd⟩
  case bang =>
    intro k token content t _ ih x
    obtain ⟨c, v, hsees, hc⟩ := ih (!x)
    exact ⟨_, _, .before hsees, by simpa using hc.not⟩
  case word =>
    intro k token content t _ _ ih x
    obtain ⟨c, v, hsees, hc⟩ := ih (!x)
    exact ⟨_, _, .before hsees, by simpa using hc.not⟩

/-- A conjunction with a bare disjunction in it can hold for the parser alone. -/
theorem exists_sees_loose {l r : Reading} {s : Symbol} {join : Token} {m : Nat}
    (hlink : s.link? = some (.both join)) (hl : Fits grammar k l) (hr : Fits grammar m r)
    (hloose : isRow l = false ∨ isRow r = false) :
    ∃ c v, Sees (.join l s r) c v ∧ c.holds = true ∧ v = false := by
  rcases hloose with hrow | hrow
  · obtain ⟨c, v, hseesl, hc⟩ := exists_starts hl true
    obtain ⟨d, hseesr, -⟩ := exists_agree hr false
    rw [← hseesl.isRow] at hrow
    refine ⟨_, _, .joined hlink hseesl hseesr, ?_, Bool.and_false v⟩
    rw [Chain.holds_append_both, Chain.holds, Chain.lead_trim hrow, hc.truth.1, Bool.true_or, Bool.true_or]
  · obtain ⟨c, hseesl, -⟩ := exists_agree hl false
    obtain ⟨d, w, hseesr, hd⟩ := exists_starts hr true
    rw [← hseesr.isRow] at hrow
    refine ⟨_, _, .joined hlink hseesl hseesr, ?_, Bool.false_and w⟩
    rw [Chain.holds_append_both, hd.truth.2 hrow, Bool.or_true]

/-- A side of a join that the parser misses can be made to decide. -/
theorem exists_ne_joined {l r : Reading} {s : Symbol} {link : Link} {m : Nat} (hlink : s.link? = some link)
    (hl : Fits grammar k l) (hr : Fits grammar m r)
    (hrows : ∀ join, link = .both join → isRow l = true ∧ isRow r = true)
    (hside : (∃ c v, Sees l c v ∧ c.holds ≠ v) ∨ ∃ c v, Sees r c v ∧ c.holds ≠ v) :
    ∃ c v, Sees (.join l s r) c v ∧ c.holds ≠ v := by
  cases link with
  | both join =>
    obtain ⟨hrowl, hrowr⟩ := hrows join rfl
    rcases hside with ⟨c, v, hsees, hne⟩ | ⟨d, w, hsees, hne⟩
    · obtain ⟨d, hother, hd⟩ := exists_agree hr true
      refine ⟨_, _, .joined hlink hsees hother, ?_⟩
      rw [Chain.holds_append_row (hsees.isRow.trans hrowl) (hother.isRow.trans hrowr), hd]
      simpa using hne
    · obtain ⟨c, hother, hc⟩ := exists_agree hl true
      refine ⟨_, _, .joined hlink hother hsees, ?_⟩
      rw [Chain.holds_append_row (hother.isRow.trans hrowl) (hsees.isRow.trans hrowr), hc]
      simpa using hne
  | either join =>
    rcases hside with ⟨c, v, hsees, hne⟩ | ⟨d, w, hsees, hne⟩
    · obtain ⟨d, hother, hd⟩ := exists_agree hr false
      refine ⟨_, _, .joined hlink hsees hother, ?_⟩
      rw [Chain.holds_append_either, hd]
      simpa using hne
    · obtain ⟨c, hother, hc⟩ := exists_agree hl false
      refine ⟨_, _, .joined hlink hother hsees, ?_⟩
      rw [Chain.holds_append_either, hc]
      simpa using hne

/-- The parser negates the first part of a join alone, and the other side can be made to decide. -/
theorem exists_ne_negated {l r : Reading} {s : Symbol} {link : Link} {m : Nat} (hlink : s.link? = some link)
    (hl : Fits grammar k l) (hr : Fits grammar m r)
    (hrows : ∀ join, link = .both join → isRow l = true ∧ isRow r = true) :
    ∃ c v, Sees (.join l s r) c v ∧ (c.flip true).holds ≠ (v ^^ true) := by
  obtain ⟨c, hseesl, -⟩ := exists_agree hl true
  cases link with
  | both join =>
    obtain ⟨hrowl, hrowr⟩ := hrows join rfl
    obtain ⟨d, hseesr, hd⟩ := exists_agree hr false
    have hrow : (c.flip true).isRow = true := by
      rw [Chain.flip, Chain.isRow_mapHead, hseesl.isRow, hrowl]
    refine ⟨_, _, .joined hlink hseesl hseesr, ?_⟩
    rw [Chain.flip_append, Chain.holds_append_row hrow (hseesr.isRow.trans hrowr), hd]
    simp
  | either join =>
    obtain ⟨d, hseesr, hd⟩ := exists_agree hr true
    refine ⟨_, _, .joined hlink hseesl hseesr, ?_⟩
    rw [Chain.flip_append, Chain.holds_append_either, hd]
    simp

/-- Where the parser does not group a reading as it is, the operands can be chosen so that it misses
its truth. -/
theorem exists_sees_ne (h : Fits grammar k t) (hn : n = true → 1 ≤ k) (hnot : groupsAlike n t = false) :
    ∃ c v, Sees t c v ∧ (c.flip n).holds ≠ (v ^^ n) := by
  refine fits_ind (motive := fun k t => ∀ n : Bool, (n = true → 1 ≤ k) → groupsAlike n t = false →
    ∃ c v, Sees t c v ∧ (c.flip n).holds ≠ (v ^^ n)) ?operand ?group ?compare ?joined
    ?bang ?word h n hn hnot
  case operand =>
    intro k o n _ hnot
    exact absurd hnot (by simp [groupsAlike])
  case group =>
    intro k opener hopener t closer hcloser _ ih n _ hnot
    obtain ⟨c, v, hsees, hne⟩ := ih false (by simp) hnot
    exact ⟨_, _, .group hsees, by simpa using hne⟩
  case compare =>
    intro k op token content l r _ _ _ _ _ n _ hnot
    exact ⟨_, _, .odd rfl hnot true false, by simp⟩
  case joined =>
    intro k sign token content link l r hlink hlevel hl hr ihl ihr n hn hnot
    cases n with
    -- without a negation before it, a conjunction that holds a disjunction is what can go wrong
    | false =>
      simp only [Chain.flip_false, Bool.xor_false]
      have hjoin : (∀ join, link = .both join → isRow l = true ∧ isRow r = true) →
          groupsAlike false l = false ∨ groupsAlike false r = false →
          ∃ c v, Sees (.join l (.sign sign token content) r) c v ∧ c.holds ≠ v := by
        intro hrows hside
        refine exists_ne_joined hlink hl hr hrows (hside.imp (fun hl' => ?_) fun hr' => ?_)
        · obtain ⟨c, v, hsees, hne⟩ := ihl false (by simp) hl'
          exact ⟨c, v, hsees, by simpa using hne⟩
        · obtain ⟨c, v, hsees, hne⟩ := ihr false (by simp) hr'
          exact ⟨c, v, hsees, by simpa using hne⟩
      cases link with
      | both join =>
        by_cases hloose : isRow l = false ∨ isRow r = false
        · obtain ⟨c, v, hsees, hc, hv⟩ := exists_sees_loose hlink hl hr hloose
          exact ⟨c, v, hsees, by simp [hc, hv]⟩
        · rw [not_or, Bool.not_eq_false, Bool.not_eq_false] at hloose
          simp only [groupsAlike, hlink, hloose, Bool.not_false, Bool.true_and] at hnot
          exact hjoin (fun _ _ => hloose) (Bool.and_eq_false_iff.1 hnot)
      | either join =>
        simp only [groupsAlike, hlink, Bool.not_false, Bool.true_and] at hnot
        exact hjoin (fun _ h => by simp at h) (Bool.and_eq_false_iff.1 hnot)
    -- a negation binds tighter than the sign, so it goes to the first part alone
    | true =>
      refine exists_ne_negated hlink hl hr fun join hboth => ?_
      exact isRow_sides (hboth ▸ hlink) ((hn rfl).trans hlevel) hl hr
  case bang =>
    intro k token content t _ ih n _ hnot
    obtain ⟨c, v, hsees, hne⟩ := ih (!n) (by omega) hnot
    exact ⟨_, _, .before hsees, by rw [Chain.flip_not]; simpa using hne⟩
  case word =>
    intro k token content t _ _ ih n _ hnot
    obtain ⟨c, v, hsees, hne⟩ := ih (!n) (by omega) hnot
    exact ⟨_, _, .before hsees, by rw [Chain.flip_not]; simpa using hne⟩

end Sees

/-! ### Valuations -/

def atoms : Reading → List Reading
  | .leaf s => [.leaf s]
  | .group _ t _ => atoms t
  | .join l s r =>
    match s.link? with
    | some _ => atoms l ++ atoms r
    | none => [.join l s r]
  | .before _ t => atoms t
  | .after t _ => atoms t

section Valuations

variable {k : Nat} {t : Reading} {c : Chain Bool} {v : Bool} {α α' ρ ρ' : Reading → Bool}

theorem cells_congr (h : ∀ e ∈ atoms t, α e = α' e) : cells α t = cells α' t := by
  induction t with
  | leaf s => exact congrArg Chain.last (h _ (List.mem_singleton_self _))
  | group opener t closer ih => exact congrArg (fun c => Chain.last (Chain.holds c)) (ih h)
  | join l s r ihl ihr =>
    cases hlink : s.link? with
    | none =>
      rw [atoms, hlink] at h
      rw [cells, cells, chainWith_apart hlink, chainWith_apart hlink, h _ (List.mem_singleton_self _)]
    | some link =>
      simp only [atoms, hlink, List.mem_append] at h
      rw [cells, cells, chainWith_joined hlink, chainWith_joined hlink]
      exact congrArg₂ (Chain.append link) (ihl fun e he => h e (.inl he)) (ihr fun e he => h e (.inr he))
  | before s t ih => exact congrArg (Chain.mapHead (!·)) (ih h)
  | after t s ih => exact ih h

theorem value_congr (h : ∀ e ∈ atoms t, ρ e = ρ' e) : value ρ t = value ρ' t := by
  induction t with
  | leaf s => exact h _ (List.mem_singleton_self _)
  | group opener t closer ih => exact ih h
  | join l s r ihl ihr =>
    cases hlink : s.link? with
    | none =>
      rw [atoms, hlink] at h
      simp only [value, hlink]
      exact h _ (List.mem_singleton_self _)
    | some link =>
      simp only [atoms, hlink, List.mem_append] at h
      have hl := ihl fun e he => h e (.inl he)
      have hr := ihr fun e he => h e (.inr he)
      simp only [value, hlink, hl, hr]
  | before s t ih => exact congrArg (!·) (ih h)
  | after t s ih => exact ih h

/-- A valuation of the operands and comparisons shows what can be seen. -/
theorem sees_of_valuation (h : Fits grammar k t) (hplain : ∀ e ∈ atoms t, isPlainAtom e = true → ρ e = α e) :
    Sees t (cells α t) (value ρ t) := by
  refine fits_ind (motive := fun _ t => (∀ e ∈ atoms t, isPlainAtom e = true → ρ e = α e) →
    Sees t (cells α t) (value ρ t)) ?operand ?group ?compare ?joined ?bang ?word h hplain
  case operand =>
    intro k o hplain
    have hself : ρ (.leaf (.operand o)) = α (.leaf (.operand o)) :=
      hplain _ (List.mem_singleton_self _) rfl
    rw [value, hself]
    exact .leaf _ _
  case group =>
    intro k opener hopener t closer hcloser _ ih hplain
    exact .group (ih hplain)
  case compare =>
    intro k op token content l r _ _ _ _ _ hplain
    by_cases hsides : (isPlain l && isPlain r) = true
    · have hself := hplain _ (List.mem_singleton_self _) hsides
      have hvalue : value ρ (.join l (.sign (.compare op) token content) r) = _ := hself
      rw [hvalue]
      exact .plain rfl _
    · exact .odd rfl (by simpa using hsides) _ _
  case joined =>
    intro k sign token content link l r hlink _ _ _ ihl ihr hplain
    simp only [atoms, hlink, List.mem_append] at hplain
    have hl := ihl fun e he => hplain e (.inl he)
    have hr := ihr fun e he => hplain e (.inr he)
    rw [cells, chainWith_joined hlink]
    simp only [value, hlink]
    exact .joined hlink hl hr
  case bang =>
    intro k token content t _ ih hplain
    exact .before (ih hplain)
  case word =>
    intro k token content t _ _ ih hplain
    exact .before (ih hplain)

open Classical in
/-- Valuations of different things can be had at once. -/
theorem exists_splice {es es' : List Reading} (h : es.Disjoint es') (f g : Reading → Bool) :
    ∃ f' : Reading → Bool, (∀ e ∈ es, f' e = f e) ∧ ∀ e ∈ es', f' e = g e := by
  refine ⟨fun e => if e ∈ es then f e else g e, fun e he => if_pos he, fun e he => if_neg fun hes => ?_⟩
  exact h hes he

/-- Where the operands and comparisons of two readings differ, what can be seen of both can be seen at
once. -/
theorem exists_truths_both {l r : Reading} {c d : Chain Bool} {v w : Bool}
    (hdisjoint : (atoms l).Disjoint (atoms r))
    (hl : ∃ α ρ, (∀ e ∈ atoms l, isPlainAtom e = true → ρ e = α e) ∧ cells α l = c ∧ value ρ l = v)
    (hr : ∃ α ρ, (∀ e ∈ atoms r, isPlainAtom e = true → ρ e = α e) ∧ cells α r = d ∧ value ρ r = w) :
    ∃ α ρ, (∀ e ∈ atoms l ++ atoms r, isPlainAtom e = true → ρ e = α e) ∧
      (cells α l = c ∧ cells α r = d) ∧ value ρ l = v ∧ value ρ r = w := by
  obtain ⟨α, ρ, hplain, rfl, rfl⟩ := hl
  obtain ⟨α', ρ', hplain', rfl, rfl⟩ := hr
  obtain ⟨β, hβl, hβr⟩ := exists_splice hdisjoint α α'
  obtain ⟨τ, hτl, hτr⟩ := exists_splice hdisjoint ρ ρ'
  refine ⟨β, τ, fun e he hatom => ?_, ⟨cells_congr hβl, cells_congr hβr⟩, value_congr hτl, value_congr hτr⟩
  rcases List.mem_append.1 he with he | he
  · rw [hτl e he, hβl e he, hplain e he hatom]
  · rw [hτr e he, hβr e he, hplain' e he hatom]

/-- Where all operands and comparisons are different, what can be seen is seen by some valuation. -/
theorem exists_truths (h : Sees t c v) (hnodup : (atoms t).Nodup) :
    ∃ α ρ, (∀ e ∈ atoms t, isPlainAtom e = true → ρ e = α e) ∧ cells α t = c ∧ value ρ t = v := by
  induction h with
  | leaf s b => exact ⟨fun _ => b, fun _ => b, fun _ _ _ => rfl, rfl, rfl⟩
  | group h ih =>
    obtain ⟨α, ρ, hplain, hc, hv⟩ := ih hnodup
    exact ⟨α, ρ, hplain, congrArg (fun c => Chain.last (Chain.holds c)) hc, hv⟩
  | plain hs b =>
    refine ⟨fun _ => b, fun _ => b, fun _ _ _ => rfl, ?_, ?_⟩
    · rw [cells, chainWith_apart hs]
    · rw [value, hs]
  | odd hs hodd b b' =>
    refine ⟨fun _ => b, fun _ => b', fun e he hplain => ?_, ?_, ?_⟩
    · rw [atoms, hs, List.mem_singleton] at he
      subst he
      exact absurd (hodd.symm.trans hplain) (by decide)
    · rw [cells, chainWith_apart hs]
    · rw [value, hs]
  | joined hs hl hr ihl ihr =>
    simp only [atoms, hs] at hnodup ⊢
    obtain ⟨hnodupl, hnodupr, hdisjoint⟩ := List.nodup_append'.1 hnodup
    obtain ⟨α, ρ, hplain, ⟨hc, hd⟩, hv, hw⟩ := exists_truths_both hdisjoint (ihl hnodupl) (ihr hnodupr)
    refine ⟨α, ρ, hplain, ?_, ?_⟩
    · rw [cells, chainWith_joined hs]
      exact congrArg₂ (Chain.append _) hc hd
    · simp only [value, hs, hv, hw]
  | before h ih =>
    obtain ⟨α, ρ, hplain, hc, hv⟩ := ih hnodup
    exact ⟨α, ρ, hplain, congrArg (Chain.mapHead (!·)) hc, congrArg (!·) hv⟩

end Valuations

/-! ### The truth of conditions that are read -/

section Conditions

variable {ctx : NormalizeContext} {t : Reading}

/-- The valuation of operands and comparisons that belongs to one of conditions. -/
def Tells (ctx : NormalizeContext) (t : Reading) (σ : Condition → Bool) (ρ : Reading → Bool) : Prop :=
  ∀ e ∈ atoms t, isPlainAtom e = true → ρ e = atomHolds ctx σ e

/-- The operands and comparisons stand for different conditions, the negations before them apart. -/
def Independent (ctx : NormalizeContext) (t : Reading) : Prop :=
  ((atoms t).map fun e => (atom? ctx (tokens e)).map Condition.core).Nodup

/-- The operands and comparisons of a condition that is read have conditions. -/
theorem known_atoms (h : (chain ctx t).Known) : ∀ e ∈ atoms t, (atom? ctx (tokens e)).isSome = true := by
  induction t with
  | leaf s =>
    intro e he
    rw [atoms, List.mem_singleton] at he
    subst he
    exact h
  | group opener t closer ih =>
    have hsome : (chain ctx t).condition?.isSome = true := h
    obtain ⟨c, hc⟩ := Option.isSome_iff_exists.1 hsome
    exact ih (Chain.known_of_condition? hc)
  | join l s r ihl ihr =>
    cases hlink : s.link? with
    | none =>
      intro e he
      rw [atoms, hlink, List.mem_singleton] at he
      subst he
      rw [chain, chainWith_apart hlink] at h
      exact h
    | some link =>
      rw [chain, chainWith_joined hlink] at h
      obtain ⟨hl, hr⟩ := Chain.known_append.1 h
      simp only [atoms, hlink, List.forall_mem_append]
      exact ⟨ihl hl, ihr hr⟩
  | before s t ih => exact ih (Chain.map_negated (fun _ => true) h).1
  | after t s ih => exact ih h

open Classical in
/-- Conditions that differ can be given any truth. -/
theorem exists_valuation {es : List Reading} (hknown : ∀ e ∈ es, (atom? ctx (tokens e)).isSome = true)
    (hnodup : (es.map fun e => (atom? ctx (tokens e)).map Condition.core).Nodup) (α : Reading → Bool) :
    ∃ σ, ∀ e ∈ es, atomHolds ctx σ e = α e := by
  induction es with
  | nil => exact ⟨fun _ => true, by simp⟩
  | cons e es ih =>
    rw [List.map_cons, List.nodup_cons] at hnodup
    obtain ⟨σ, hσ⟩ := ih (fun e he => hknown e (List.mem_cons_of_mem _ he)) hnodup.2
    obtain ⟨c, hc⟩ := Option.isSome_iff_exists.1 (hknown e List.mem_cons_self)
    refine ⟨Function.update σ c.core (α e ^^ c.isFlipped), List.forall_mem_cons.2 ⟨?_, fun e' he' => ?_⟩⟩
    · rw [atomHolds, hc, Option.any_some, Condition.holds_core (atom?_isJoint hc), Function.update_self]
      simp
    · obtain ⟨c', hc'⟩ := Option.isSome_iff_exists.1 (hknown e' (List.mem_cons_of_mem _ he'))
      have hne : c'.core ≠ c.core := by
        intro heq
        refine hnodup.1 (List.mem_map.2 ⟨e', he', ?_⟩)
        rw [hc, hc', Option.map_some, Option.map_some, heq]
      have hsame := hσ e' he'
      rw [atomHolds, hc', Option.any_some, Condition.holds_core (atom?_isJoint hc')] at hsame ⊢
      rw [Function.update_of_ne hne, hsame]

end Conditions

/-- Where the parser groups a condition as it was written, what it reads has the truth of the code. Where
it does not, and the operands are independent, some valuation tells the two apart. -/
theorem holds_eq_value_iff_groupsAlike {code : Text} {constants : Bindings Value} {t : Reading}
    {c : Condition} (hspells : Spells code t) (hc : parseCondition? code constants = some c) :
    (groupsAlike false t = true →
      ∀ σ ρ, Tells (contextOf code constants) t σ ρ → c.holds σ = value ρ t) ∧
    (Independent (contextOf code constants) t →
      (∀ σ ρ, Tells (contextOf code constants) t σ ρ → c.holds σ = value ρ t) →
      groupsAlike false t = true) := by
  rw [parseCondition?_spelled hspells] at hc
  constructor
  · intro halike σ ρ htells
    have hsees := sees_of_valuation hspells.fits htells
    have htruth := holds_eq_of_groupsAlike hsees halike
    rw [Chain.flip_false, Bool.xor_false] at htruth
    rw [holds_of_chain hc, htruth]
  · intro hindependent hsame
    by_contra hnot
    obtain ⟨k, v, hsees, hne⟩ := exists_sees_ne hspells.fits (n := false) (by simp) (by simpa using hnot)
    obtain ⟨α, ρ, hplain, rfl, rfl⟩ := exists_truths hsees (List.Nodup.of_map _ hindependent)
    obtain ⟨σ, hσ⟩ := exists_valuation (known_atoms (Chain.known_of_condition? hc)) hindependent α
    have htells : Tells (contextOf code constants) t σ ρ := fun e he hatom => by
      rw [hplain e he hatom, hσ e he]
    have heq := hsame σ ρ htells
    rw [holds_of_chain hc, cells_congr hσ] at heq
    exact hne (by simpa using heq)

/-- In `a || b and c` the word joins `c` with all that stands before it, and the parser joins it with
`b` alone. -/
theorem word_joins_last_part :
    ∃ t c, Spells "node['a'] || node['b'] and node['c']" t ∧
      parseCondition? "node['a'] || node['b'] and node['c']" .empty = some c ∧
      ∃ σ ρ, Tells (contextOf "node['a'] || node['b'] and node['c']" .empty) t σ ρ ∧
        c.holds σ ≠ value ρ t := by
  let code : Text := "node['a'] || node['b'] and node['c']"
  let run := (lexInline code 0).filter (!·.isPunct [";"])
  let a : Reading := .leaf (.operand ⟨run.take 4, by decide +kernel⟩)
  let b : Reading := .leaf (.operand ⟨(run.drop 5).take 4, by decide +kernel⟩)
  let c : Reading := .leaf (.operand ⟨run.drop 10, by decide +kernel⟩)
  let either : Symbol := .sign .either (run.get ⟨4, by decide +kernel⟩) (by decide +kernel)
  let and : Symbol := .sign .and (run.get ⟨9, by decide +kernel⟩) (by decide +kernel)
  let t : Reading := .join (.join a either b) and c
  have hfits : Fits grammar 0 t :=
    .left rfl rfl le_rfl (.left rfl rfl (Nat.zero_le _) (.leaf rfl) (.leaf rfl)) (.leaf rfl)
  have hspells : Spells code t := ⟨hfits, by decide +kernel⟩
  have hsome : (parseCondition? code .empty).isSome = true := by decide +kernel
  obtain ⟨k, hk⟩ := Option.isSome_iff_exists.1 hsome
  have hindependent : Independent (contextOf code .empty) t := by
    refine List.Nodup.of_map (·.map Condition.render) ?_
    decide +kernel
  refine ⟨t, k, hspells, hk, ?_⟩
  by_contra hsame
  push Not at hsame
  have halike := (holds_eq_value_iff_groupsAlike hspells hk).2 hindependent hsame
  exact absurd halike (by decide +kernel)

end Binding

end Cookbook
