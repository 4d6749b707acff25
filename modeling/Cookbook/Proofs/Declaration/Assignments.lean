import Cookbook.Proofs.Declaration.Accounting

/-!
Names in force. Extraction follows the assignments that it comes to one after another, in the order
written and wherever they stand, so what a name stands for at the end is what its last assignment made
of it. A trailing modifier makes the name unknown; a branch or a loop around the assignment does not,
and a block in its value leaves the name as it was before.

* `listAssignments` are the assignments, `AssignmentSite.bind` is what one of them does;
* `constants_extractList` says that the names in force are those after all assignments;
* `last_assignment_decides` says what a name stands for after a whole file.
-/

namespace Cookbook

open RecipeReader

/-! ### The assignments of a recipe -/

/-- An assignment, the name it assigns, and whether a branch, a loop or a modifier stands around it. -/
structure AssignmentSite where
  command : Command
  name : Text
  guarded : Bool

mutual

/-- The assignments that the extraction of a statement comes to, in order. -/
def Statement.assignments (r : RecipeReader) (guarded : Bool) : Statement → List AssignmentSite
  | .command c => c.assignments r guarded
  | .conditional ⟨_, _, _, branches, _, _⟩ => branchAssignments r branches
  | .compound ⟨extent, head, body, opener, closer⟩ =>
    if Compound.isRun ⟨extent, head, body, opener, closer⟩ then
      listAssignments r (guarded || isLoopWord opener.text) body
    else []

/-- The assignment that a command is, or those in its block. -/
def Command.assignments (r : RecipeReader) (guarded : Bool) : Command → List AssignmentSite
  | ⟨extent, head, block, inner, modifier⟩ =>
    let c : Command := ⟨extent, head, block, inner, modifier⟩
    match assignedName? c with
    | some name => [⟨c, name, guarded⟩]
    | none =>
      if (r.declared? c).isSome then []
      else match block with
        | some ⟨_, _, _, _, body⟩ =>
          listAssignments r (guarded || modifier.isSome || isIterator c) body
        | none => []

def listAssignments (r : RecipeReader) (guarded : Bool) : List Statement → List AssignmentSite
  | [] => []
  | s :: rest => s.assignments r guarded ++ listAssignments r guarded rest

def branchAssignments (r : RecipeReader) : List Branch → List AssignmentSite
  | [] => []
  | ⟨_, _, body, _⟩ :: rest => listAssignments r true body ++ branchAssignments r rest

end

section Command

variable (r : RecipeReader) (guarded : Bool) {c : Command}

theorem Command.assignments_of_assigned {name : Text} (h : assignedName? c = some name) :
    c.assignments r guarded = [⟨c, name, guarded⟩] := by
  obtain ⟨extent, head, block, inner, modifier⟩ := c
  unfold Command.assignments
  simp [h]

theorem Command.assignments_of_declared (h : assignedName? c = none)
    (hd : (r.declared? c).isSome = true) : c.assignments r guarded = [] := by
  obtain ⟨extent, head, block, inner, modifier⟩ := c
  unfold Command.assignments
  simp [h, hd]

theorem Command.assignments_of_block (h : assignedName? c = none) (hd : r.declared? c = none)
    {block : Block} (hblock : c.block = some block) :
    c.assignments r guarded =
      listAssignments r (guarded || c.modifier.isSome || isIterator c) block.body := by
  obtain ⟨extent, head, _, inner, modifier⟩ := c
  obtain rfl : _ = some block := hblock
  obtain ⟨kind, opener, closer, params, body⟩ := block
  unfold Command.assignments
  simp [h, hd]

theorem Command.assignments_of_rest (h : assignedName? c = none) (hd : r.declared? c = none)
    (hblock : c.block = none) : c.assignments r guarded = [] := by
  obtain ⟨extent, head, _, inner, modifier⟩ := c
  obtain rfl : _ = none := hblock
  unfold Command.assignments
  simp [h, hd]

end Command

/-! ### One assignment -/

namespace AssignmentSite

/-- The value that an assignment is read as, with the given names in force. -/
def value (r : RecipeReader) (constants : Bindings Value) (s : AssignmentSite) : Value :=
  (NormalizeContext.normalize ⟨r.source, r.program.lines, constants⟩ (s.command.head.drop 2)).value

def bind (r : RecipeReader) (constants : Bindings Value) (s : AssignmentSite) : Bindings Value :=
  (r.assign s.command s.name ⟨constants, [], []⟩).constants

/-- Whether the name of an assignment is unknown after it: with a block in the value it is unless it
was known before, and otherwise if a modifier trails or the value is kept as written. -/
def forgets (r : RecipeReader) (constants : Bindings Value) (s : AssignmentSite) : Bool :=
  if s.command.block.isSome then !constants.contains s.name
  else s.command.modifier.isSome || (s.value r constants).isVerbatim

variable (r : RecipeReader) (constants : Bindings Value) (s : AssignmentSite)

theorem get?_bind : (s.bind r constants).get? s.name =
    if s.command.block.isSome then constants.get? s.name
    else if s.command.modifier.isSome || (s.value r constants).isVerbatim then none
    else some (s.value r constants) := by
  unfold bind RecipeReader.assign
  change (if _ then _ else if _ then _ else if (s.value r constants).isVerbatim then _ else _ :
    Extraction).constants.get? s.name = _
  cases hb : s.command.block.isSome with
  | true => simp
  | false =>
    cases hm : s.command.modifier.isSome with
    | true => simp
    | false =>
      cases hv : (s.value r constants).isVerbatim with
      | true => simp
      | false => simp; rfl

theorem get?_bind_of_ne {other : Text} (h : s.name ≠ other) :
    (s.bind r constants).get? other = constants.get? other := by
  unfold bind RecipeReader.assign
  dsimp only
  split_ifs <;> simp [Ne.symm h]

theorem get?_foldl_bind {sites : List AssignmentSite} {other : Text}
    (h : ∀ s ∈ sites, s.name ≠ other) (constants : Bindings Value) :
    (sites.foldl (bind r) constants).get? other = constants.get? other := by
  induction sites generalizing constants with
  | nil => rfl
  | cons s rest ih =>
    rw [List.foldl_cons, ih fun s' hs' => h s' (List.mem_cons_of_mem _ hs'),
      get?_bind_of_ne r constants s (h s List.mem_cons_self)]

theorem get?_bind_eq_none_iff :
    (s.bind r constants).get? s.name = none ↔ s.forgets r constants = true := by
  rw [get?_bind]
  unfold forgets Bindings.contains
  generalize s.command.modifier.isSome = modified
  cases s.command.block.isSome with
  | true => simp
  | false => cases modified <;> simp

end AssignmentSite

/-! ### All assignments -/

section Run

variable (r : RecipeReader)

/-- A command, given the names in force after its block. -/
theorem Command.constants_extract (c : Command) (guarded : Bool) (around : Surroundings)
    (e : Extraction)
    (hbody : ∀ b, c.block = some b → ∀ (guarded : Bool) (around : Surroundings) (e : Extraction),
      (extractList r around b.body e).constants =
        (listAssignments r guarded b.body).foldl (AssignmentSite.bind r) e.constants) :
    (c.extract r around e).constants =
      (c.assignments r guarded).foldl (AssignmentSite.bind r) e.constants := by
  cases ha : assignedName? c with
  | some name =>
    rw [Command.extract_of_assigned around ha, Command.assignments_of_assigned r guarded ha]
    -- what is assigned depends on the names in force alone
    show _ = (r.assign c name ⟨e.constants, [], []⟩).constants
    unfold RecipeReader.assign
    dsimp only [RecipeReader.ctx]
    split_ifs <;> rfl
  | none =>
    cases hd : r.declared? c with
    | some declared =>
      rw [Command.extract_of_declared around ha hd,
        Command.assignments_of_declared r guarded ha (by rw [hd]; rfl)]
      rfl
    | none =>
      cases hb : c.block with
      | none =>
        rw [Command.extract_of_rest around ha hd hb, Command.assignments_of_rest r guarded ha hd hb]
        rfl
      | some b =>
        rw [Command.extract_of_block around ha hd hb, Command.assignments_of_block r guarded ha hd hb]
        split
        · exact hbody b hb _ _ e
        · exact hbody b hb _ _ _

mutual

theorem Statement.constants_extract : ∀ (s : Statement) (guarded : Bool) (around : Surroundings)
    (e : Extraction), (s.extract r around e).constants =
      (s.assignments r guarded).foldl (AssignmentSite.bind r) e.constants
  | .command ⟨extent, head, none, inner, modifier⟩, guarded, around, e => by
    rw [Statement.extract, Statement.assignments]
    exact Command.constants_extract r _ guarded around e fun _ hb => absurd hb (by simp)
  | .command ⟨extent, head, some ⟨kind, opener, closer, params, body⟩, inner, modifier⟩, guarded, around,
      e => by
    rw [Statement.extract, Statement.assignments]
    exact Command.constants_extract r _ guarded around e fun b hb =>
      Option.some.inj hb ▸ constants_extractList body
  | .conditional ⟨extent, word, subject, branches, opener, closer⟩, guarded, around, e => by
    rw [Statement.extract, Statement.assignments]
    exact constants_extractBranches branches (r.sourceOf subject) [] around e
  | .compound ⟨extent, head, body, opener, closer⟩, guarded, around, e => by
    rw [Statement.assignments]
    cases hrun : Compound.isRun ⟨extent, head, body, opener, closer⟩ with
    | true =>
      rw [Compound.extract_of_isRun hrun, if_pos rfl]
      exact constants_extractList body _ _ e
    | false =>
      rw [Compound.extract_of_not_isRun hrun, if_neg Bool.false_ne_true]
      rfl

/-- The names in force after a list of statements are those after its assignments. -/
theorem constants_extractList : ∀ (body : List Statement) (guarded : Bool) (around : Surroundings)
    (e : Extraction), (extractList r around body e).constants =
      (listAssignments r guarded body).foldl (AssignmentSite.bind r) e.constants
  | [], guarded, around, e => by
    rw [extractList, listAssignments]
    rfl
  | s :: rest, guarded, around, e => by
    rw [extractList, listAssignments, List.foldl_append,
      constants_extractList rest guarded around, Statement.constants_extract s guarded around]

theorem constants_extractBranches : ∀ (branches : List Branch) (subject : Text)
    (prior : List ContextCondition) (around : Surroundings) (e : Extraction),
    (extractBranches r around subject prior branches e).constants =
      (branchAssignments r branches).foldl (AssignmentSite.bind r) e.constants
  | [], subject, prior, around, e => by
    rw [extractBranches, branchAssignments]
    rfl
  | ⟨word, condition, body, start⟩ :: rest, subject, prior, around, e => by
    rw [extractBranches, branchAssignments, List.foldl_append,
      constants_extractBranches rest subject, constants_extractList body true]

end

end Run

/-! ### Whole files -/

/-- After a file a name stands for what its last assignment made of it, whether or not that assignment
stands in a branch or a loop: nothing after a trailing modifier or a value kept as written, what it
stood for before when the value has a block, and otherwise the value. So it is unknown exactly when
that assignment forgets it. -/
theorem last_assignment_decides (source text : Text) (knownTypes : List Text)
    (constants : Bindings Value) (before after : List AssignmentSite) (s : AssignmentSite)
    (hsites : listAssignments ⟨source, Program.ofText text, knownTypes⟩ false
      (Program.ofText text).statements = before ++ s :: after)
    (hlast : ∀ s' ∈ after, s'.name ≠ s.name) :
    let r : RecipeReader := ⟨source, Program.ofText text, knownTypes⟩
    let earlier := before.foldl (AssignmentSite.bind r) constants
    let result := extractDeclarations source text knownTypes constants
    result.constants = after.foldl (AssignmentSite.bind r) (s.bind r earlier) ∧
      (result.constants.get? s.name =
        if s.command.block.isSome then earlier.get? s.name
        else if s.command.modifier.isSome || (s.value r earlier).isVerbatim then none
        else some (s.value r earlier)) ∧
      (result.constants.get? s.name = none ↔ s.forgets r earlier = true) := by
  intro r earlier result
  have hall : result.constants = after.foldl (AssignmentSite.bind r) (s.bind r earlier) := by
    have hrun := constants_extractList r (Program.ofText text).statements false ⟨[], false⟩
      ⟨constants, [], (Program.ofText text).problems.map
        (Diagnostic.ofProblem source (Program.ofText text).lines)⟩
    rw [hsites, List.foldl_append, List.foldl_cons] at hrun
    exact hrun
  have hname : result.constants.get? s.name = (s.bind r earlier).get? s.name := by
    rw [hall, AssignmentSite.get?_foldl_bind r hlast]
  refine ⟨hall, hname.trans (AssignmentSite.get?_bind r earlier s), ?_⟩
  rw [hname]
  exact AssignmentSite.get?_bind_eq_none_iff r earlier s

/-- A name assigned in a branch alone stands for the value of that branch, and one that is assigned
again with a block for its value before. -/
theorem guarded_and_block_assignments_bind :
    let text : Text := "y = 'a'\ny = z do\nend\nif node['k']\n  x = 'b'\nend\n"
    let r : RecipeReader := ⟨"recipe.rb", Program.ofText text, []⟩
    let result := extractDeclarations "recipe.rb" text [] .empty
    ∃ first second last : AssignmentSite,
      listAssignments r false r.program.statements = [first, second, last] ∧
      (second.command.block.isSome = true ∧ second.forgets r (first.bind r .empty) = false ∧
        (result.constants.get? second.name).bind Value.literalText? = some ("a" : Text)) ∧
      last.guarded = true ∧ last.forgets r (second.bind r (first.bind r .empty)) = false ∧
        (result.constants.get? last.name).bind Value.literalText? = some ("b" : Text) := by
  intro text r result
  have hsites : (listAssignments r false r.program.statements).map
      (fun s => (s.name, s.command.block.isSome, s.guarded)) =
      [(("y" : Text), false, false), (("y" : Text), true, false), (("x" : Text), false, true)] := by
    decide +kernel
  have hy : (result.constants.get? "y").bind Value.literalText? = some ("a" : Text) := by
    decide +kernel
  have hx : (result.constants.get? "x").bind Value.literalText? = some ("b" : Text) := by
    decide +kernel
  obtain ⟨first, rest, hlist, hfirst, hrest⟩ := List.map_eq_cons_iff.1 hsites
  obtain ⟨second, more, rfl, hsecond, hmore⟩ := List.map_eq_cons_iff.1 hrest
  obtain ⟨last, none, rfl, hlast, hnone⟩ := List.map_eq_cons_iff.1 hmore
  obtain rfl := List.map_eq_nil_iff.1 hnone
  obtain ⟨hyname, hblock, -⟩ : second.name = ("y" : Text) ∧ second.command.block.isSome = true ∧ _ := by
    simpa using hsecond
  obtain ⟨hxname, -, hguarded⟩ : last.name = ("x" : Text) ∧ _ ∧ last.guarded = true := by
    simpa using hlast
  rw [← hyname] at hy
  rw [← hxname] at hx
  have hsecondIff := (last_assignment_decides "recipe.rb" text [] .empty [first] [last] second hlist
    (by simp [hyname, hxname]; decide)).2.2
  have hlastIff := (last_assignment_decides "recipe.rb" text [] .empty [first, second] [] last hlist
    (by simp)).2.2
  refine ⟨first, second, last, hlist, ⟨hblock, ?_, hy⟩, hguarded, ?_, hx⟩
  · refine Bool.eq_false_iff.2 fun hforgets => ?_
    rw [hsecondIff.2 hforgets] at hy
    exact absurd hy (by simp)
  · refine Bool.eq_false_iff.2 fun hforgets => ?_
    rw [hlastIff.2 hforgets] at hx
    exact absurd hx (by simp)

end Cookbook
