import Cookbook.Proofs.Declaration.Steps
import Cookbook.Proofs.Statement.Branches
import Mathlib.Data.List.Nodup

/-!
The conditions around a declaration say when it is reached. An interpreter walks the statements with
a truth value for each test, takes the first branch that holds, and enters loops and blocks once; the
context of a declaration holds exactly when the interpreter comes to it.

* `Valuation` gives the tests their truth values, `holds` those of a context;
* `reachedList` is the interpreter: the declarations it comes to, by address;
* `listSites` lists all declarations of the statements, reached or not;
* `context_holds_iff_reached` is the result for whole files.
-/

namespace Cookbook

open RecipeReader

/-! ### Truth -/

/-- A truth value for each test. -/
abbrev Valuation := ContextForm → Bool

def ContextCondition.holds (v : Valuation) (c : ContextCondition) : Bool := v c.form != c.negated

def holds (v : Valuation) (context : List ContextCondition) : Bool := context.all (·.holds v)

/-- The values that a branch of a `case` lists. -/
def RecipeReader.matchValues (r : RecipeReader) (condition : List Token) : List Text :=
  let pieces := splitTopLevel "," condition
  (if pieces.getLast?.any (·.isEmpty) then pieces.dropLast else pieces).map r.sourceOf

/-- Whether a branch would be taken if the ones before it are not. -/
def RecipeReader.takes (r : RecipeReader) (v : Valuation) (subject : Text) (b : Branch) : Bool :=
  match b.word with
  | .ifTrue | .elsif => v (.test (r.sourceOf b.condition))
  | .unlessTrue => !v (.test (r.sourceOf b.condition))
  | .matching =>
    if subject = [] then v (.test (r.sourceOf b.condition))
    else v (.oneOf subject (r.matchValues b.condition))
  | .otherwise => true

/-- Whether a command with a trailing modifier is run at all. -/
def RecipeReader.runs (r : RecipeReader) (v : Valuation) : Option Modifier → Bool
  | none => true
  | some m =>
    match m.word with
    | .whenTrue => v (.test (r.sourceOf m.condition))
    | .unlessTrue => !v (.test (r.sourceOf m.condition))
    | .whileTrue | .untilTrue => true

/-! ### The interpreter -/

/-- Where a statement stands: its number in each list of statements or branches around it, outermost
first. -/
abbrev Address := List Nat

/-- A command that declares a resource, with its address. -/
structure Site where
  address : Address
  command : Command

/-- The site one level further out. -/
def Site.under (i : Nat) (s : Site) : Site := { s with address := i :: s.address }

/-- Whether the body of a compound statement is run where it stands, and not only defined. -/
def Compound.isRun (c : Compound) : Bool :=
  decide (c.opener.text = ("begin" : Text)) || isLoopWord c.opener.text

mutual

/-- The declarations that running a statement comes to. -/
def Statement.reached (r : RecipeReader) (v : Valuation) : Statement → List Site
  | .command c => c.reached r v
  | .conditional ⟨_, _, subject, branches, _, _⟩ =>
    reachedBranch r v (r.sourceOf subject) 0 branches
  | .compound ⟨extent, head, body, opener, closer⟩ =>
    if Compound.isRun ⟨extent, head, body, opener, closer⟩ then reachedList r v 0 body else []

/-- A command is passed over when its modifier says so. An assignment declares nothing, and the block
of a declaration is no part of the recipe. -/
def Command.reached (r : RecipeReader) (v : Valuation) : Command → List Site
  | ⟨extent, head, block, inner, modifier⟩ =>
    let c : Command := ⟨extent, head, block, inner, modifier⟩
    if !r.runs v modifier || (assignedName? c).isSome then []
    else if (r.declared? c).isSome then [⟨[], c⟩]
    else match block with
      | some ⟨_, _, _, _, body⟩ => reachedList r v 0 body
      | none => []

/-- The statements of a list are run one after another, counted from `i`. -/
def reachedList (r : RecipeReader) (v : Valuation) : Nat → List Statement → List Site
  | _, [] => []
  | i, s :: rest => (s.reached r v).map (Site.under i) ++ reachedList r v (i + 1) rest

/-- Of the branches, counted from `i`, the first one that holds is run, and no other. -/
def reachedBranch (r : RecipeReader) (v : Valuation) (subject : Text) :
    Nat → List Branch → List Site
  | _, [] => []
  | i, ⟨word, condition, body, start⟩ :: rest =>
    if r.takes v subject ⟨word, condition, body, start⟩ then
      (reachedList r v 0 body).map (Site.under i)
    else reachedBranch r v subject (i + 1) rest

end

/-! ### Sites -/

mutual

/-- The declarations in a statement, whether they are reached or not. -/
def Statement.sites (r : RecipeReader) : Statement → List Site
  | .command c => c.sites r
  | .conditional ⟨_, _, _, branches, _, _⟩ => branchSites r 0 branches
  | .compound ⟨extent, head, body, opener, closer⟩ =>
    if Compound.isRun ⟨extent, head, body, opener, closer⟩ then listSites r 0 body else []

/-- The declaration that a command is, or those in its block. -/
def Command.sites (r : RecipeReader) : Command → List Site
  | ⟨extent, head, block, inner, modifier⟩ =>
    let c : Command := ⟨extent, head, block, inner, modifier⟩
    if (assignedName? c).isSome then []
    else if (r.declared? c).isSome then [⟨[], c⟩]
    else match block with
      | some ⟨_, _, _, _, body⟩ => listSites r 0 body
      | none => []

def listSites (r : RecipeReader) : Nat → List Statement → List Site
  | _, [] => []
  | i, s :: rest => (s.sites r).map (Site.under i) ++ listSites r (i + 1) rest

def branchSites (r : RecipeReader) : Nat → List Branch → List Site
  | _, [] => []
  | i, ⟨_, _, body, _⟩ :: rest =>
    (listSites r 0 body).map (Site.under i) ++ branchSites r (i + 1) rest

end

/-! ### Truth of contexts -/

section Truth

variable (v : Valuation)

@[simp] theorem holds_nil : holds v [] = true := rfl

@[simp] theorem holds_append (context more : List ContextCondition) :
    holds v (context ++ more) = (holds v context && holds v more) := List.all_append

@[simp] theorem holds_singleton (c : ContextCondition) : holds v [c] = c.holds v := by
  simp [holds]

@[simp] theorem ContextCondition.holds_negate (c : ContextCondition) :
    c.negate.holds v = !c.holds v := by
  cases h : v c.form <;> cases hn : c.negated <;>
    simp [ContextCondition.holds, ContextCondition.negate, h, hn]

variable (r : RecipeReader)

theorem holds_modified (modifier : Option Modifier) (around : Surroundings) :
    holds v (r.modified modifier around).context =
      (holds v around.context && r.runs v modifier) := by
  cases modifier with
  | none => simp [modified, runs]
  | some m =>
    obtain ⟨word, condition, start⟩ := m
    have hwhen : (ModifierWord.whenTrue == .unlessTrue) = false := rfl
    cases word <;> simp [modified, runs, ContextCondition.holds, hwhen]

theorem branchCondition?_otherwise (subject : Text) (condition : List Token) (start : Nat) :
    r.branchCondition? subject .otherwise condition start = none := by
  simp [branchCondition?]

/-- The condition of a branch holds when the branch would be taken. -/
theorem holds_branchCondition? (subject : Text) {b : Branch} (hword : b.word ≠ .otherwise) :
    ∃ own, r.branchCondition? subject b.word b.condition b.start = some own ∧
      own.holds v = r.takes v subject b := by
  obtain ⟨word, condition, body, start⟩ := b
  cases word with
  | otherwise => exact absurd rfl hword
  | ifTrue => exact ⟨_, rfl, Bool.xor_false _⟩
  | elsif => exact ⟨_, rfl, Bool.xor_false _⟩
  | unlessTrue => exact ⟨_, rfl, Bool.xor_true _⟩
  | matching =>
    by_cases hsubject : subject = []
    · subst hsubject
      exact ⟨_, rfl, Bool.xor_false _⟩
    · refine ⟨⟨.oneOf subject (r.matchValues condition), false, r.runSpan condition start⟩, ?_, ?_⟩
      · simp [branchCondition?, hsubject, matchValues]
      · simp [takes, hsubject, ContextCondition.holds]

end Truth

/-! ### Addresses -/

/-- The address starts with `i` or a greater number. -/
def From (i : Nat) (a : Address) : Prop := ∃ j rest, i ≤ j ∧ a = j :: rest

theorem From.mono {i j : Nat} {a : Address} (h : From j a) (hij : i ≤ j) : From i a := by
  obtain ⟨k, rest, hk, rfl⟩ := h
  exact ⟨k, rest, hij.trans hk, rfl⟩

theorem not_from_under (i : Nat) (s : Site) : ¬ From (i + 1) (s.under i).address := by
  rintro ⟨j, rest, hj, h⟩
  injection h with h
  omega

theorem Site.under_injective (i : Nat) : Function.Injective (Site.under i) := by
  rintro ⟨a, c⟩ ⟨a', c'⟩ h
  injection h with ha hc
  injection ha with _ ha
  obtain rfl : a = a' := ha
  obtain rfl : c = c' := hc
  rfl

theorem mem_map_under (i : Nat) (s : Site) (sites : List Site) :
    s.under i ∈ sites.map (Site.under i) ↔ s ∈ sites :=
  List.mem_map_of_injective (Site.under_injective i)

theorem not_mem_map_under {i : Nat} {s : Site} (h : From (i + 1) s.address) (sites : List Site) :
    s ∉ sites.map (Site.under i) := by
  intro hs
  obtain ⟨s', -, rfl⟩ := List.mem_map.1 hs
  exact not_from_under i s' h

section Addresses

variable (r : RecipeReader) (v : Valuation)

theorem from_of_mem_reachedList {i : Nat} {body : List Statement} {s : Site}
    (h : s ∈ reachedList r v i body) : From i s.address := by
  induction body generalizing i with
  | nil =>
    rw [reachedList] at h
    exact absurd h List.not_mem_nil
  | cons first rest ih =>
    rw [reachedList] at h
    rcases List.mem_append.1 h with h | h
    · obtain ⟨s', -, rfl⟩ := List.mem_map.1 h
      exact ⟨i, s'.address, le_rfl, rfl⟩
    · exact (ih h).mono (Nat.le_succ i)

theorem from_of_mem_reachedBranch {subject : Text} {i : Nat} {branches : List Branch} {s : Site}
    (h : s ∈ reachedBranch r v subject i branches) : From i s.address := by
  induction branches generalizing i with
  | nil =>
    rw [reachedBranch] at h
    exact absurd h List.not_mem_nil
  | cons b rest ih =>
    obtain ⟨word, condition, body, start⟩ := b
    rw [reachedBranch] at h
    split at h
    · obtain ⟨s', -, rfl⟩ := List.mem_map.1 h
      exact ⟨i, s'.address, le_rfl, rfl⟩
    · exact (ih h).mono (Nat.le_succ i)

theorem from_of_mem_listSites {i : Nat} {body : List Statement} {s : Site}
    (h : s ∈ listSites r i body) : From i s.address := by
  induction body generalizing i with
  | nil =>
    rw [listSites] at h
    exact absurd h List.not_mem_nil
  | cons first rest ih =>
    rw [listSites] at h
    rcases List.mem_append.1 h with h | h
    · obtain ⟨s', -, rfl⟩ := List.mem_map.1 h
      exact ⟨i, s'.address, le_rfl, rfl⟩
    · exact (ih h).mono (Nat.le_succ i)

theorem from_of_mem_branchSites {i : Nat} {branches : List Branch} {s : Site}
    (h : s ∈ branchSites r i branches) : From i s.address := by
  induction branches generalizing i with
  | nil =>
    rw [branchSites] at h
    exact absurd h List.not_mem_nil
  | cons b rest ih =>
    obtain ⟨word, condition, body, start⟩ := b
    rw [branchSites] at h
    rcases List.mem_append.1 h with h | h
    · obtain ⟨s', -, rfl⟩ := List.mem_map.1 h
      exact ⟨i, s'.address, le_rfl, rfl⟩
    · exact (ih h).mono (Nat.le_succ i)

end Addresses

/-! ### Declarations and sites -/

/-- The declaration is that of the site, and its context holds when the context around holds and the
site is reached. -/
structure Matches (r : RecipeReader) (v : Valuation) (context : List ContextCondition)
    (reached : List Site) (d : Declaration) (s : Site) : Prop where
  span : d.span = r.program.spanOf s.command.extent
  type : ∃ name, r.declared? s.command = some (d.type, name)
  context : holds v d.context = true ↔ holds v context = true ∧ s ∈ reached

/-- The declarations that `e'` has over `e` are those of the sites. -/
def Declares (r : RecipeReader) (v : Valuation) (context : List ContextCondition)
    (reached : List Site) (sites : List Site) (e e' : Extraction) : Prop :=
  ∃ more, e'.declarations = e.declarations ++ more ∧
    List.Forall₂ (Matches r v context reached) more sites

namespace Declares

variable {r : RecipeReader} {v : Valuation} {context context' : List ContextCondition}
  {reached reached' : List Site} {sites sites' : List Site} {e e' e'' : Extraction}

theorem none (h : e'.declarations = e.declarations) : Declares r v context reached [] e e' :=
  ⟨[], by rw [h, List.append_nil], .nil⟩

theorem append (h : Declares r v context reached sites e e')
    (h' : Declares r v context reached sites' e' e'') :
    Declares r v context reached (sites ++ sites') e e'' := by
  obtain ⟨more, hmore, hall⟩ := h
  obtain ⟨more', hmore', hall'⟩ := h'
  refine ⟨more ++ more', by rw [hmore', hmore, List.append_assoc], ?_⟩
  exact List.rel_append hall hall'

/-- The same declarations, seen from one level further out or under other conditions. -/
theorem map {f : Site → Site} (hf : ∀ s, (f s).command = s.command)
    (h : Declares r v context reached sites e e')
    (hiff : ∀ s ∈ sites, (holds v context = true ∧ s ∈ reached ↔
      holds v context' = true ∧ f s ∈ reached')) :
    Declares r v context' reached' (sites.map f) e e' := by
  obtain ⟨more, hmore, hall⟩ := h
  refine ⟨more, hmore, ?_⟩
  clear hmore
  induction hall with
  | nil => exact .nil
  | @cons d s more sites hd _ ih =>
    refine .cons ⟨?_, ?_, hd.context.trans (hiff s List.mem_cons_self)⟩
      (ih fun s' hs' => hiff s' (List.mem_cons_of_mem _ hs'))
    · rw [hf]
      exact hd.span
    · rw [hf]
      exact hd.type

theorem congr (h : Declares r v context reached sites e e')
    (hiff : ∀ s ∈ sites, (holds v context = true ∧ s ∈ reached ↔
      holds v context' = true ∧ s ∈ reached')) :
    Declares r v context' reached' sites e e' := by
  have hmap := h.map (f := id) (fun _ => rfl) hiff
  rwa [List.map_id] at hmap

end Declares

/-! ### Commands -/

section Command

variable (r : RecipeReader) (v : Valuation) {c : Command}

theorem Command.reached_of_declared (h : assignedName? c = none)
    (hd : (r.declared? c).isSome = true) :
    c.reached r v = if r.runs v c.modifier then [⟨[], c⟩] else [] := by
  obtain ⟨extent, head, block, inner, modifier⟩ := c
  unfold Command.reached
  cases hruns : r.runs v modifier <;> simp [h, hd]

theorem Command.reached_of_block (h : assignedName? c = none) (hd : r.declared? c = none)
    {block : Block} (hblock : c.block = some block) :
    c.reached r v = if r.runs v c.modifier then reachedList r v 0 block.body else [] := by
  obtain ⟨extent, head, _, inner, modifier⟩ := c
  obtain rfl : _ = some block := hblock
  obtain ⟨kind, opener, closer, params, body⟩ := block
  unfold Command.reached
  cases hruns : r.runs v modifier <;> simp [h, hd]

theorem Command.sites_of_assigned (h : (assignedName? c).isSome = true) : c.sites r = [] := by
  obtain ⟨extent, head, block, inner, modifier⟩ := c
  unfold Command.sites
  simp [h]

theorem Command.sites_of_declared (h : assignedName? c = none)
    (hd : (r.declared? c).isSome = true) : c.sites r = [⟨[], c⟩] := by
  obtain ⟨extent, head, block, inner, modifier⟩ := c
  unfold Command.sites
  simp [h, hd]

theorem Command.sites_of_block (h : assignedName? c = none) (hd : r.declared? c = none)
    {block : Block} (hblock : c.block = some block) : c.sites r = listSites r 0 block.body := by
  obtain ⟨extent, head, _, inner, modifier⟩ := c
  obtain rfl : _ = some block := hblock
  obtain ⟨kind, opener, closer, params, body⟩ := block
  unfold Command.sites
  simp [h, hd]

theorem Command.sites_of_rest (h : assignedName? c = none) (hd : r.declared? c = none)
    (hblock : c.block = none) : c.sites r = [] := by
  obtain ⟨extent, head, _, inner, modifier⟩ := c
  obtain rfl : _ = none := hblock
  unfold Command.sites
  simp [h, hd]

theorem Command.declares (around : Surroundings) (e : Extraction)
    (hbody : ∀ block, c.block = some block → ∀ (around : Surroundings) (e : Extraction),
      Declares r v around.context (reachedList r v 0 block.body) (listSites r 0 block.body) e
        (extractList r around block.body e)) :
    Declares r v around.context (c.reached r v) (c.sites r) e (c.extract r around e) := by
  have hmodified := holds_modified v r c.modifier around
  cases ha : assignedName? c with
  | some name =>
    rw [Command.sites_of_assigned r (by rw [ha]; rfl), Command.extract_of_assigned around ha]
    refine .none ?_
    unfold assign
    split_ifs <;> [rfl; rfl; skip]
    dsimp only
    split_ifs <;> rfl
  | none =>
    cases hd : r.declared? c with
    | some declared =>
      -- a declared command is one site, and its block is no place for others
      obtain ⟨type, name⟩ := declared
      have hsome : (r.declared? c).isSome = true := by rw [hd]; rfl
      rw [Command.sites_of_declared r ha hsome, Command.reached_of_declared r v ha hsome,
        Command.extract_of_declared around ha hd]
      refine ⟨_, rfl, .cons ⟨rfl, ⟨name, hd⟩, ?_⟩ .nil⟩
      show holds v (r.modified c.modifier around).context = true ↔ _
      rw [hmodified]
      cases r.runs v c.modifier <;> simp
    | none =>
      cases hb : c.block with
      | none =>
        rw [Command.sites_of_rest r ha hd hb, Command.extract_of_rest around ha hd hb]
        exact .none rfl
      | some block =>
        rw [Command.sites_of_block r ha hd hb, Command.reached_of_block r v ha hd hb,
          Command.extract_of_block around ha hd hb]
        have hiff : ∀ s ∈ listSites r 0 block.body,
            (holds v (r.modified c.modifier around).context = true ∧
              s ∈ reachedList r v 0 block.body ↔ holds v around.context = true ∧
              s ∈ if r.runs v c.modifier then reachedList r v 0 block.body else []) := by
          intro s _
          rw [hmodified]
          cases r.runs v c.modifier <;> simp
        by_cases hiterator : isIterator c = true
        · rw [if_pos hiterator]
          exact (hbody block hb { r.modified c.modifier around with inLoop := true } e).congr hiff
        · rw [if_neg hiterator]
          exact (hbody block hb (r.modified c.modifier around) _).congr hiff

end Command

/-! ### Branches -/

section Branch

variable (r : RecipeReader) (v : Valuation)

theorem holds_own (subject : Text) (b : Branch) :
    holds v (r.branchCondition? subject b.word b.condition b.start).toList = r.takes v subject b := by
  by_cases hword : b.word = .otherwise
  · simp [hword, branchCondition?_otherwise, takes]
  · obtain ⟨own, hown, hholds⟩ := holds_branchCondition? v r subject hword
    simp [hown, hholds]

theorem holds_opposite (subject : Text) {b : Branch} (hword : b.word ≠ .otherwise) :
    holds v ((r.branchCondition? subject b.word b.condition b.start).map
      ContextCondition.negate).toList = !r.takes v subject b := by
  obtain ⟨own, hown, hholds⟩ := holds_branchCondition? v r subject hword
  simp [hown, hholds]

/-- The first of some branches, given what it declares and what the others declare. -/
theorem Declares.branch {b : Branch} {rest : List Branch} (hlast : ElseLast (b :: rest))
    {context prior : List ContextCondition} {subject : Text} {i : Nat} {e e' e'' : Extraction}
    (hbody : Declares r v
      (context ++ prior ++ (r.branchCondition? subject b.word b.condition b.start).toList)
      (reachedList r v 0 b.body) (listSites r 0 b.body) e e')
    (hrest : Declares r v
      (context ++ (prior ++ ((r.branchCondition? subject b.word b.condition b.start).map
        ContextCondition.negate).toList))
      (reachedBranch r v subject (i + 1) rest) (branchSites r (i + 1) rest) e' e'') :
    Declares r v (context ++ prior) (reachedBranch r v subject i (b :: rest))
      (branchSites r i (b :: rest)) e e'' := by
  have hown := holds_own r v subject b
  have hopposite := fun hword => holds_opposite r v subject (b := b) hword
  obtain ⟨word, condition, body, start⟩ := b
  rw [branchSites, reachedBranch]
  refine Declares.append (hbody.map (fun _ => rfl) ?_) (hrest.congr ?_)
  · intro s _
    rw [holds_append, hown]
    cases htakes : r.takes v subject ⟨word, condition, body, start⟩ with
    | true => simp only [Bool.and_true, if_true, mem_map_under]
    | false =>
      have hnot : s.under i ∉ reachedBranch r v subject (i + 1) rest := fun h =>
        not_from_under i s (from_of_mem_reachedBranch r v h)
      simp [hnot]
  · intro s hs
    have hfrom := from_of_mem_branchSites r hs
    have hword : word ≠ .otherwise := by
      cases rest with
      | nil =>
        rw [branchSites] at hs
        exact absurd hs List.not_mem_nil
      | cons b' more => exact (List.pairwise_cons.1 hlast).1 b' List.mem_cons_self
    rw [holds_append, holds_append, hopposite hword, holds_append]
    cases htakes : r.takes v subject ⟨word, condition, body, start⟩ with
    | true =>
      have hnot := not_mem_map_under hfrom (reachedList r v 0 body)
      simp only [hnot, Bool.not_true, Bool.and_false, Bool.false_eq_true, false_and, if_true, and_false]
    | false => simp

end Branch

/-! ### Statements -/

section Statement

variable (r : RecipeReader) (v : Valuation)

mutual

theorem Statement.declares : ∀ (s : Statement), WellBranched [s] →
    ∀ (around : Surroundings) (e : Extraction),
      Declares r v around.context (s.reached r v) (s.sites r) e (s.extract r around e)
  | .command ⟨extent, head, none, inner, modifier⟩, _, around, e => by
    rw [Statement.reached, Statement.sites, Statement.extract]
    exact Command.declares r v around e fun _ hblock => absurd hblock (by simp)
  | .command ⟨extent, head, some ⟨kind, opener, closer, params, body⟩, inner, modifier⟩, hs, around,
      e => by
    rw [Statement.reached, Statement.sites, Statement.extract]
    have hbody : WellBranched body := fun c hc => hs c (.block List.mem_cons_self rfl hc)
    exact Command.declares r v around e fun block hblock around e =>
      Option.some.inj hblock ▸ declares_list body hbody 0 around e
  | .conditional ⟨extent, word, subject, branches, opener, closer⟩, hs, around, e => by
    rw [Statement.reached, Statement.sites, Statement.extract]
    have h := declares_branches branches (hs _ (.here List.mem_cons_self))
      (fun b hb c hc => hs c (.branch List.mem_cons_self hb hc)) (r.sourceOf subject) [] 0 around e
    rwa [List.append_nil] at h
  | .compound ⟨extent, head, body, opener, closer⟩, hs, around, e => by
    have hbody : WellBranched body := fun c hc => hs c (.compound List.mem_cons_self hc)
    rw [Statement.reached, Statement.sites, Statement.extract]
    unfold Compound.isRun
    by_cases hbegin : opener.text = ("begin" : Text)
    · simp only [hbegin, decide_true, Bool.true_or, if_true]
      exact declares_list body hbody 0 around e
    · cases hloop : isLoopWord opener.text with
      | true =>
        simp only [hbegin, decide_false, Bool.false_or, if_true, if_false]
        exact declares_list body hbody 0 { around with inLoop := true } e
      | false =>
        simp only [hbegin, decide_false, Bool.false_or, if_false, Bool.false_eq_true]
        exact .none rfl

theorem declares_list : ∀ (body : List Statement), WellBranched body →
    ∀ (i : Nat) (around : Surroundings) (e : Extraction),
      Declares r v around.context (reachedList r v i body) (listSites r i body) e
        (extractList r around body e)
  | [], _, i, around, e => by
    rw [listSites, extractList]
    exact .none rfl
  | s :: rest, hbody, i, around, e => by
    have hs := Statement.declares s (hbody.of_subset (by simp)) around e
    have hrest := declares_list rest (hbody.of_subset (by simp)) (i + 1) around (s.extract r around e)
    rw [reachedList, listSites, extractList]
    refine Declares.append (hs.map (fun _ => rfl) ?_) (hrest.congr ?_)
    · intro site _
      have hnot : site.under i ∉ reachedList r v (i + 1) rest := fun h =>
        not_from_under i site (from_of_mem_reachedList r v h)
      rw [List.mem_append, or_iff_left hnot, mem_map_under]
    · intro site hsite
      have hnot := not_mem_map_under (from_of_mem_listSites r hsite) (s.reached r v)
      rw [List.mem_append, or_iff_right hnot]

theorem declares_branches : ∀ (branches : List Branch), ElseLast branches →
    (∀ b ∈ branches, WellBranched b.body) →
    ∀ (subject : Text) (prior : List ContextCondition) (i : Nat) (around : Surroundings)
      (e : Extraction),
      Declares r v (around.context ++ prior) (reachedBranch r v subject i branches)
        (branchSites r i branches) e (extractBranches r around subject prior branches e)
  | [], _, _, subject, prior, i, around, e => by
    rw [branchSites, extractBranches]
    exact .none rfl
  | ⟨word, condition, body, start⟩ :: rest, hlast, hbodies, subject, prior, i, around, e => by
    rw [extractBranches]
    exact Declares.branch r v hlast
      (declares_list body (hbodies _ List.mem_cons_self) 0
        { around with
          context := around.context ++ prior ++
            (r.branchCondition? subject word condition start).toList } e)
      (declares_branches rest (List.pairwise_cons.1 hlast).2
        (fun b hb => hbodies b (List.mem_cons_of_mem _ hb)) subject _ (i + 1) around _)

end

end Statement

/-! ### One address, one declaration -/

/-- The sites of two parts, the second one at later addresses. -/
theorem nodup_append_under {i : Nat} {sites later : List Site}
    (hsites : (sites.map Site.address).Nodup) (hlater : (later.map Site.address).Nodup)
    (hfrom : ∀ s ∈ later, From (i + 1) s.address) :
    ((sites.map (Site.under i) ++ later).map Site.address).Nodup := by
  rw [List.map_append, List.map_map]
  refine List.nodup_append.2 ⟨?_, hlater, ?_⟩
  · have hcons : (sites.map Site.address).map (i :: ·) = sites.map (Site.address ∘ Site.under i) := by
      rw [List.map_map]
      rfl
    rw [← hcons]
    exact List.Nodup.map (List.cons_injective) hsites
  · intro a ha a' ha'
    obtain ⟨s, -, rfl⟩ := List.mem_map.1 ha
    obtain ⟨s', hs', rfl⟩ := List.mem_map.1 ha'
    intro heq
    have hunder : (s.under i).address = s'.address := heq
    exact not_from_under i s (hunder ▸ hfrom s' hs')

section Nodup

variable (r : RecipeReader)

mutual

theorem Statement.nodup_sites : ∀ s : Statement, ((s.sites r).map Site.address).Nodup
  | .command ⟨extent, head, none, inner, modifier⟩ => by
    rw [Statement.sites]
    unfold Command.sites
    dsimp only
    split_ifs <;> simp
  | .command ⟨extent, head, some ⟨kind, opener, closer, params, body⟩, inner, modifier⟩ => by
    rw [Statement.sites]
    unfold Command.sites
    dsimp only
    split_ifs
    · simp
    · simp
    · exact nodup_listSites 0 body
  | .conditional ⟨extent, word, subject, branches, opener, closer⟩ => by
    rw [Statement.sites]
    exact nodup_branchSites 0 branches
  | .compound ⟨extent, head, body, opener, closer⟩ => by
    rw [Statement.sites]
    split_ifs
    · exact nodup_listSites 0 body
    · simp

theorem nodup_listSites : ∀ (i : Nat) (body : List Statement),
    ((listSites r i body).map Site.address).Nodup
  | i, [] => by
    rw [listSites]
    exact List.nodup_nil
  | i, s :: rest => by
    rw [listSites]
    exact nodup_append_under (Statement.nodup_sites s) (nodup_listSites (i + 1) rest) fun _ =>
      from_of_mem_listSites r

theorem nodup_branchSites : ∀ (i : Nat) (branches : List Branch),
    ((branchSites r i branches).map Site.address).Nodup
  | i, [] => by
    rw [branchSites]
    exact List.nodup_nil
  | i, ⟨word, condition, body, start⟩ :: rest => by
    rw [branchSites]
    exact nodup_append_under (nodup_listSites 0 body) (nodup_branchSites (i + 1) rest) fun _ =>
      from_of_mem_branchSites r

end

end Nodup

/-! ### One conditional, one branch -/

section Selection

variable (r : RecipeReader) (v : Valuation) (subject : Text)

/-- The contexts of the branches of a conditional, within that of the conditional. -/
def RecipeReader.branchContexts : List ContextCondition → List Branch → List (List ContextCondition)
  | _, [] => []
  | prior, b :: rest =>
    let own := r.branchCondition? subject b.word b.condition b.start
    (prior ++ own.toList) ::
      RecipeReader.branchContexts (prior ++ (own.map ContextCondition.negate).toList) rest

/-- The body of each branch is read under the context of the branch. -/
theorem extractBranches_eq (around : Surroundings) (prior : List ContextCondition)
    (branches : List Branch) (e : Extraction) :
    extractBranches r around subject prior branches e =
      (branches.zip (r.branchContexts subject prior branches)).foldl
        (fun e (b, context) =>
          extractList r { around with context := around.context ++ context } b.body e) e := by
  induction branches generalizing prior e with
  | nil =>
    rw [extractBranches]
    rfl
  | cons b rest ih =>
    obtain ⟨word, condition, body, start⟩ := b
    rw [extractBranches]
    simp only [ih, branchContexts, List.zip_cons_cons, List.foldl_cons, List.append_assoc]

/-- One branch is selected if any of them is taken, and none otherwise. -/
theorem countP_branchContexts {branches : List Branch} (hlast : ElseLast branches)
    (prior : List ContextCondition) :
    (r.branchContexts subject prior branches).countP (holds v) =
      if holds v prior && branches.any (r.takes v subject) then 1 else 0 := by
  induction branches generalizing prior with
  | nil => simp [branchContexts]
  | cons b rest ih =>
    obtain ⟨hword, hrest⟩ := List.pairwise_cons.1 hlast
    rw [branchContexts, List.countP_cons, ih hrest, holds_append, holds_append, holds_own,
      List.any_cons]
    cases rest with
    | nil => simp
    | cons b' more =>
      rw [holds_opposite r v subject (hword b' List.mem_cons_self)]
      cases holds v prior <;> cases r.takes v subject b <;> simp

end Selection

/-! ### Whole files -/

/-- The context of a declaration holds, under any truth values, exactly when running the file with
these comes to it; and of the branches of a conditional never two are selected, and always one if
there is an `else`. -/
theorem context_holds_iff_reached (source text : Text) (knownTypes : List Text)
    (constants : Bindings Value) (v : Valuation) :
    let p := Program.ofText text
    let r : RecipeReader := ⟨source, p, knownTypes⟩
    let sites := listSites r 0 p.statements
    let reached := reachedList r v 0 p.statements
    (sites.map Site.address).Nodup ∧
      List.Forall₂
        (fun d s =>
          d.span = p.spanOf s.command.extent ∧ (∃ name, r.declared? s.command = some (d.type, name)) ∧
            (holds v d.context = true ↔ s ∈ reached))
        (extractDeclarations source text knownTypes constants).declarations sites ∧
      ∀ c : Conditional, c.In p.statements →
        let contexts := r.branchContexts (r.sourceOf c.subject) [] c.branches
        (∀ around e, (Statement.conditional c).extract r around e =
          (c.branches.zip contexts).foldl
            (fun e (b, context) =>
              extractList r { around with context := around.context ++ context } b.body e) e) ∧
          contexts.countP (holds v) ≤ 1 ∧
          ((∃ b ∈ c.branches, b.word = .otherwise) → contexts.countP (holds v) = 1) := by
  intro p r sites reached
  have hwell := Program.wellBranched_ofText text
  refine ⟨nodup_listSites r 0 _, ?_, ?_⟩
  · obtain ⟨more, hmore, hall⟩ := declares_list r v p.statements hwell 0 ⟨[], false⟩
      ⟨constants, [], p.problems.map (Diagnostic.ofProblem source p.lines)⟩
    have hdeclarations : (extractDeclarations source text knownTypes constants).declarations = more :=
      hmore
    rw [hdeclarations]
    refine hall.imp fun d s h => ⟨h.span, h.type, ?_⟩
    rw [h.context, holds_nil, eq_self, true_and]
  · intro c hc contexts
    have hcount := countP_branchContexts r v (r.sourceOf c.subject) (hwell c hc) []
    refine ⟨?_, ?_, ?_⟩
    · intro around e
      obtain ⟨extent, word, subject, branches, opener, closer⟩ := c
      rw [Statement.extract]
      exact extractBranches_eq r (r.sourceOf subject) around [] branches e
    · rw [hcount]
      split <;> omega
    · rintro ⟨b, hb, hword⟩
      have htaken : c.branches.any (r.takes v (r.sourceOf c.subject)) = true :=
        List.any_eq_true.2 ⟨b, hb, by simp [takes, hword]⟩
      rw [hcount, htaken]
      rfl

end Cookbook
