import Cookbook.Proofs.Declaration.Reaching

/-!
What becomes of each statement that extraction comes to. It goes through lists of statements, those of
the file first and then those of blocks, branches and loops; of what it comes to, a statement leaves a
declaration, a name set or unset, a diagnostic, or its own statements are gone through. Two kinds of
statement leave nothing: one that only defines its body, and an assignment whose value has a block.

* `Visits` says with what surroundings and what extraction so far a list is gone through;
* `Extraction.Grows` says that nothing recorded is taken back, `Visits.grows` that what is recorded on
  the way is there at the end;
* `Accounted` is what may become of a statement;
* `reached_accounted_or_passedOver` is the result for whole files.
-/

namespace Cookbook

open RecipeReader

/-! ### What is recorded stays -/

/-- The declarations and diagnostics of the second extraction start with those of the first. -/
structure Extraction.Grows (e e' : Extraction) : Prop where
  declarations : e.declarations <+: e'.declarations
  diagnostics : e.diagnostics <+: e'.diagnostics

namespace Extraction.Grows

variable {e e' e'' : Extraction}

theorem refl (e : Extraction) : e.Grows e := ⟨List.prefix_rfl, List.prefix_rfl⟩

theorem trans (h : e.Grows e') (h' : e'.Grows e'') : e.Grows e'' :=
  ⟨h.declarations.trans h'.declarations, h.diagnostics.trans h'.diagnostics⟩

theorem report (r : RecipeReader) (e : Extraction) (span : Span) (finding : Finding) :
    e.Grows (r.report e span finding) :=
  ⟨List.prefix_rfl, List.prefix_append _ _⟩

theorem declare (r : RecipeReader) (type : Text) (c : Command) (name : List Token)
    (around : Surroundings) (e : Extraction) : e.Grows (r.declare type c name around e) :=
  ⟨List.prefix_append _ _, List.prefix_append _ _⟩

theorem assign (r : RecipeReader) (c : Command) (name : Text) (e : Extraction) :
    e.Grows (r.assign c name e) := by
  unfold RecipeReader.assign
  split
  · exact refl e
  · split
    · exact ⟨List.prefix_rfl, List.prefix_rfl⟩
    · dsimp only
      split <;> exact ⟨List.prefix_rfl, List.prefix_rfl⟩

end Extraction.Grows

section Grows

variable (r : RecipeReader)

theorem Command.extract_grows (c : Command) (around : Surroundings) (e : Extraction)
    (hbody : ∀ b, c.block = some b → ∀ (around : Surroundings) (e : Extraction),
      e.Grows (extractList r around b.body e)) : e.Grows (c.extract r around e) := by
  cases ha : assignedName? c with
  | some name =>
    rw [Command.extract_of_assigned around ha]
    exact .assign r c name e
  | none =>
    cases hd : r.declared? c with
    | some declared =>
      rw [Command.extract_of_declared around ha hd]
      exact .declare r _ c _ _ e
    | none =>
      cases hb : c.block with
      | none =>
        rw [Command.extract_of_rest around ha hd hb]
        exact .report r e _ _
      | some b =>
        rw [Command.extract_of_block around ha hd hb]
        split
        · exact hbody b hb _ e
        · exact (Extraction.Grows.report r e _ _).trans (hbody b hb _ _)

mutual

theorem Statement.extract_grows : ∀ (s : Statement) (around : Surroundings) (e : Extraction),
    e.Grows (s.extract r around e)
  | .command ⟨extent, head, none, inner, modifier⟩, around, e => by
    rw [Statement.extract]
    exact Command.extract_grows r _ around e fun _ hb => absurd hb (by simp)
  | .command ⟨extent, head, some ⟨kind, opener, closer, params, body⟩, inner, modifier⟩, around, e => by
    rw [Statement.extract]
    exact Command.extract_grows r _ around e fun b hb => Option.some.inj hb ▸ extractList_grows body
  | .conditional ⟨extent, word, subject, branches, opener, closer⟩, around, e => by
    rw [Statement.extract]
    exact extractBranches_grows branches (r.sourceOf subject) [] around e
  | .compound ⟨extent, head, body, opener, closer⟩, around, e => by
    rw [Statement.extract]
    split
    · exact extractList_grows body around e
    · split
      · exact extractList_grows body _ e
      · exact .refl e

theorem extractList_grows : ∀ (body : List Statement) (around : Surroundings) (e : Extraction),
    e.Grows (extractList r around body e)
  | [], around, e => by
    rw [extractList]
    exact .refl e
  | s :: rest, around, e => by
    rw [extractList]
    exact (Statement.extract_grows s around e).trans (extractList_grows rest around _)

theorem extractBranches_grows : ∀ (branches : List Branch) (subject : Text)
    (prior : List ContextCondition) (around : Surroundings) (e : Extraction),
    e.Grows (extractBranches r around subject prior branches e)
  | [], subject, prior, around, e => by
    rw [extractBranches]
    exact .refl e
  | ⟨word, condition, body, start⟩ :: rest, subject, prior, around, e => by
    rw [extractBranches]
    exact (extractList_grows body _ e).trans (extractBranches_grows rest subject _ around _)

end

end Grows

/-! ### What extraction comes to -/

/-- Going through the statements `all` of a recipe comes to a list of statements, with these
surroundings and this extraction so far. -/
inductive Visits (r : RecipeReader) (all : List Statement) (around : Surroundings) (e : Extraction) :
    List Statement → Surroundings → Extraction → Prop
  | start : Visits r all around e all around e
  | next {s : Statement} {rest : List Statement} {a : Surroundings} {x : Extraction}
      (h : Visits r all around e (s :: rest) a x) : Visits r all around e rest a (s.extract r a x)
  | loop {c : Command} {b : Block} {rest : List Statement} {a : Surroundings} {x : Extraction}
      (h : Visits r all around e (.command c :: rest) a x) (hassigned : assignedName? c = none)
      (hdeclared : r.declared? c = none) (hblock : c.block = some b) (hloop : isIterator c = true) :
      Visits r all around e b.body { r.modified c.modifier a with inLoop := true } x
  | owner {c : Command} {b : Block} {rest : List Statement} {a : Surroundings} {x : Extraction}
      (h : Visits r all around e (.command c :: rest) a x) (hassigned : assignedName? c = none)
      (hdeclared : r.declared? c = none) (hblock : c.block = some b) (hloop : isIterator c = false) :
      Visits r all around e b.body (r.modified c.modifier a)
        (r.report x (r.program.spanOf c.extent) (.blockOwner (r.sourceOf c.head)))
  | branch {c : Conditional} {before after : List Branch} {b : Branch}
      {context : List ContextCondition} {rest : List Statement} {a : Surroundings} {x : Extraction}
      (h : Visits r all around e (.conditional c :: rest) a x)
      (hbranches : c.branches = before ++ b :: after)
      (hcontext : (r.branchContexts (r.sourceOf c.subject) [] c.branches)[before.length]? =
        some context) :
      Visits r all around e b.body { a with context := a.context ++ context }
        (extractBranches r a (r.sourceOf c.subject) [] before x)
  | body {c : Compound} {rest : List Statement} {a : Surroundings} {x : Extraction}
      (h : Visits r all around e (.compound c :: rest) a x) (hrun : c.isRun = true) :
      Visits r all around e c.body { a with inLoop := a.inLoop || isLoopWord c.opener.text } x

section Visits

variable {r : RecipeReader} {all : List Statement} {around : Surroundings} {e : Extraction}

/-- The branches before one are gone through, then that one, then those after it. -/
theorem extractBranches_split (subject : Text) (before after : List Branch) (b : Branch)
    (around : Surroundings) (prior context : List ContextCondition) (e : Extraction)
    (hcontext : (r.branchContexts subject prior (before ++ b :: after))[before.length]? =
      some context) :
    ∃ prior', extractBranches r around subject prior (before ++ b :: after) e =
      extractBranches r around subject prior' after
        (extractList r { around with context := around.context ++ context } b.body
          (extractBranches r around subject prior before e)) := by
  induction before generalizing prior e with
  | nil =>
    obtain ⟨word, condition, body, start⟩ := b
    obtain rfl := Option.some.inj hcontext
    rw [List.nil_append, extractBranches, extractBranches, List.append_assoc]
    exact ⟨_, rfl⟩
  | cons b' more ih =>
    obtain ⟨word, condition, body, start⟩ := b'
    obtain ⟨prior', hprior⟩ := ih _ _ hcontext
    refine ⟨prior', ?_⟩
    rw [List.cons_append, extractBranches, hprior, extractBranches]

theorem Compound.extract_of_isRun {c : Compound} (h : c.isRun = true) (a : Surroundings)
    (x : Extraction) :
    (Statement.compound c).extract r a x =
      extractList r { a with inLoop := a.inLoop || isLoopWord c.opener.text } c.body x := by
  obtain ⟨extent, head, body, opener, closer⟩ := c
  rw [Statement.extract]
  simp only [Compound.isRun, Bool.or_eq_true, decide_eq_true_eq] at h
  split
  · rename_i hbegin
    have hnot : isLoopWord opener.text = false := by rw [hbegin]; decide
    simp [hnot]
  · rename_i hbegin
    have hloop := h.resolve_left hbegin
    simp [hloop]

theorem Compound.extract_of_not_isRun {c : Compound} (h : c.isRun = false) (a : Surroundings)
    (x : Extraction) : (Statement.compound c).extract r a x = x := by
  obtain ⟨extent, head, body, opener, closer⟩ := c
  rw [Statement.extract]
  simp only [Compound.isRun, Bool.or_eq_false_iff, decide_eq_false_iff_not] at h
  rw [if_neg h.1, if_neg (by simp [h.2])]

/-- What is recorded in going through a list is there at the end. -/
theorem Visits.grows {body : List Statement} {a : Surroundings} {x : Extraction}
    (h : Visits r all around e body a x) :
    (extractList r a body x).Grows (extractList r around all e) := by
  have hrest : ∀ {s : Statement} {rest : List Statement} {a : Surroundings} {x inner : Extraction},
      inner = s.extract r a x → inner.Grows (extractList r a (s :: rest) x) := by
    rintro s rest a x _ rfl
    rw [extractList]
    exact extractList_grows r rest a _
  induction h with
  | start => exact .refl _
  | next _ ih =>
    rw [extractList] at ih
    exact ih
  | loop _ ha hd hb hloop ih =>
    refine (hrest ?_).trans ih
    rw [Statement.extract, Command.extract_of_block _ ha hd hb, if_pos hloop]
  | owner _ ha hd hb hloop ih =>
    refine (hrest ?_).trans ih
    rw [Statement.extract, Command.extract_of_block _ ha hd hb, if_neg (by simp [hloop])]
  | @branch c before after b context rest a x _ hbranches hcontext ih =>
    refine Extraction.Grows.trans ?_ ih
    obtain ⟨extent, word, subject, branches, opener, closer⟩ := c
    obtain rfl : branches = _ := hbranches
    obtain ⟨prior, hsplit⟩ := extractBranches_split (r.sourceOf subject) before after b a [] context x
      hcontext
    rw [extractList, Statement.extract, hsplit]
    exact (extractBranches_grows r after _ _ a _).trans (extractList_grows r rest a _)
  | body _ hrun ih => exact (hrest (Compound.extract_of_isRun hrun _ _).symm).trans ih

end Visits

/-! ### What becomes of a statement -/

/-- Every statement of the body or the branches of a statement that has such; no statement without
them qualifies. -/
def Statement.EachInside (P : Statement → Prop) : Statement → Prop
  | .command c => ∃ b, c.block = some b ∧ ∀ s ∈ b.body, P s
  | .conditional c => ∀ b ∈ c.branches, ∀ s ∈ b.body, P s
  | .compound c => ∀ s ∈ c.body, P s

/-- The statement is come to, with some surroundings and some extraction so far. -/
def Reached (r : RecipeReader) (all : List Statement) (around : Surroundings) (e : Extraction)
    (s : Statement) : Prop :=
  ∃ rest a x, Visits r all around e (s :: rest) a x

/-- What becomes of a statement that is come to with the surroundings `a` and the extraction `x`: a
declaration with its stretch, a name that it sets or unsets, a diagnostic with its stretch, or its own
statements are come to. -/
inductive Accounted (r : RecipeReader) (all : List Statement) (around : Surroundings)
    (e : Extraction) (a : Surroundings) (x : Extraction) (s : Statement) : Prop
  | declared (d : Declaration) (hd : d ∈ (extractList r around all e).declarations)
      (hspan : d.span = r.program.spanOf s.extent)
  | assigned (c : Command) (name : Text) (hs : s = .command c) (hname : assignedName? c = some name)
      (hset : (s.extract r a x).constants =
          x.constants.set name ((r.ctx x).normalize (c.head.drop 2)).value ∨
        (s.extract r a x).constants = x.constants.erase name)
  | reported (d : Diagnostic) (hd : d ∈ (extractList r around all e).diagnostics)
      (hspan : d.span = r.program.spanOf s.extent)
  | entered (h : s.EachInside (Reached r all around e))

/-- A statement whose body is not gone through and that leaves nothing itself: one that only defines
its body, or an assignment of a value with a block. -/
def Statement.passedOver : Statement → Bool
  | .command c => (assignedName? c).isSome && c.block.any (!·.body.isEmpty)
  | .conditional _ => false
  | .compound c => !c.isRun && !c.body.isEmpty

section Accounted

variable {r : RecipeReader} {all : List Statement} {around a : Surroundings} {e x : Extraction}
  {rest : List Statement}

theorem Visits.reached {body : List Statement} (h : Visits r all around e body a x) :
    ∀ s ∈ body, Reached r all around e s := by
  induction body generalizing x with
  | nil => exact fun s hs => absurd hs List.not_mem_nil
  | cons s' more ih =>
    intro s hs
    rcases List.mem_cons.1 hs with rfl | hs
    · exact ⟨more, a, x, h⟩
    · exact ih h.next s hs

theorem Visits.mem_declarations {s : Statement} (h : Visits r all around e (s :: rest) a x)
    {d : Declaration} (hd : d ∈ (s.extract r a x).declarations) :
    d ∈ (extractList r around all e).declarations :=
  h.next.grows.declarations.subset ((extractList_grows r rest a _).declarations.subset hd)

theorem Visits.mem_diagnostics {s : Statement} (h : Visits r all around e (s :: rest) a x)
    {d : Diagnostic} (hd : d ∈ (s.extract r a x).diagnostics) :
    d ∈ (extractList r around all e).diagnostics :=
  h.next.grows.diagnostics.subset ((extractList_grows r rest a _).diagnostics.subset hd)

/-- An assignment without a block sets its name to the value it reads, or unsets it. -/
theorem RecipeReader.constants_assign (r : RecipeReader) {c : Command} (hb : c.block = none)
    (name : Text) (x : Extraction) :
    (r.assign c name x).constants =
        x.constants.set name ((r.ctx x).normalize (c.head.drop 2)).value ∨
      (r.assign c name x).constants = x.constants.erase name := by
  unfold RecipeReader.assign
  rw [hb]
  simp only [Option.isSome_none, Bool.false_eq_true, if_false]
  split
  · exact .inr rfl
  · split
    · exact .inr rfl
    · exact .inl rfl

/-- A declared command leaves a declaration with its stretch. -/
theorem RecipeReader.mem_declare (r : RecipeReader) (type : Text) (c : Command) (name : List Token)
    (a : Surroundings) (x : Extraction) :
    ∃ d ∈ (r.declare type c name a x).declarations, d.span = r.program.spanOf c.extent :=
  ⟨_, List.mem_append_right _ List.mem_cons_self, rfl⟩

theorem RecipeReader.mem_report (r : RecipeReader) (x : Extraction) (span : Span)
    (finding : Finding) : ∃ d ∈ (r.report x span finding).diagnostics, d.span = span :=
  ⟨_, List.mem_append_right _ List.mem_cons_self, rfl⟩

theorem Command.accounted {c : Command} (h : Visits r all around e (.command c :: rest) a x)
    (hpassed : (Statement.command c).passedOver = false) :
    Accounted r all around e a x (.command c) := by
  cases ha : assignedName? c with
  | some name =>
    cases hb : c.block with
    | none =>
      refine .assigned c name rfl ha ?_
      rw [Statement.extract, Command.extract_of_assigned a ha]
      exact r.constants_assign hb name x
    | some b =>
      -- the block of an assignment is not gone through, so it has nothing in it
      have hnil : b.body = [] := by simpa [Statement.passedOver, ha, hb] using hpassed
      refine .entered ⟨b, hb, ?_⟩
      rw [hnil]
      exact fun s hs => absurd hs List.not_mem_nil
  | none =>
    cases hd : r.declared? c with
    | some declared =>
      obtain ⟨d, hmem, hspan⟩ := r.mem_declare declared.1 c declared.2 (r.modified c.modifier a) x
      rw [← Command.extract_of_declared a ha hd, ← Statement.extract] at hmem
      exact .declared d (h.mem_declarations hmem) hspan
    | none =>
      cases hb : c.block with
      | none =>
        obtain ⟨d, hmem, hspan⟩ := r.mem_report x (r.program.spanOf c.extent)
          (.statement (r.sourceOf c.head))
        rw [← Command.extract_of_rest a ha hd hb, ← Statement.extract] at hmem
        exact .reported d (h.mem_diagnostics hmem) hspan
      | some b =>
        cases hloop : isIterator c with
        | true => exact .entered ⟨b, hb, (h.loop ha hd hb hloop).reached⟩
        | false => exact .entered ⟨b, hb, (h.owner ha hd hb hloop).reached⟩

theorem RecipeReader.length_branchContexts (r : RecipeReader) (subject : Text)
    (prior : List ContextCondition) (branches : List Branch) :
    (r.branchContexts subject prior branches).length = branches.length := by
  induction branches generalizing prior with
  | nil => rfl
  | cons b rest ih => simp [branchContexts, ih]

theorem Conditional.accounted {c : Conditional}
    (h : Visits r all around e (.conditional c :: rest) a x) :
    Accounted r all around e a x (.conditional c) := by
  refine .entered fun b hb => ?_
  obtain ⟨before, after, hsplit⟩ := List.append_of_mem hb
  have hlt : before.length < (r.branchContexts (r.sourceOf c.subject) [] c.branches).length := by
    rw [length_branchContexts, hsplit, List.length_append, List.length_cons]
    omega
  exact (h.branch hsplit (List.getElem?_eq_getElem hlt)).reached

theorem Compound.accounted {c : Compound} (h : Visits r all around e (.compound c :: rest) a x)
    (hpassed : (Statement.compound c).passedOver = false) :
    Accounted r all around e a x (.compound c) := by
  refine .entered ?_
  cases hrun : c.isRun with
  | true => exact (h.body hrun).reached
  | false =>
    have hnil : c.body = [] := by simpa [Statement.passedOver, hrun] using hpassed
    intro s hs
    rw [hnil] at hs
    exact absurd hs List.not_mem_nil

theorem Statement.extract_of_passedOver {s : Statement} (h : s.passedOver = true) (a : Surroundings)
    (x : Extraction) : s.extract r a x = x := by
  cases s with
  | command c =>
    simp only [Statement.passedOver, Bool.and_eq_true, Option.isSome_iff_exists] at h
    obtain ⟨⟨name, ha⟩, hb⟩ := h
    obtain ⟨b, hb, -⟩ := (Option.any_eq_true _ _).1 hb
    rw [Statement.extract, Command.extract_of_assigned a ha]
    unfold RecipeReader.assign
    rw [hb]
    rfl
  | conditional c => exact absurd h Bool.false_ne_true
  | compound c =>
    simp only [Statement.passedOver, Bool.and_eq_true, Bool.not_eq_true'] at h
    exact Compound.extract_of_not_isRun h.1 a x

end Accounted

/-! ### Whole files -/

/-- Every statement that the extraction of a recipe comes to is accounted for, apart from those that
are passed over: these change nothing, so neither they nor what stands in them leaves a trace. -/
theorem reached_accounted_or_passedOver (source text : Text) (knownTypes : List Text)
    (constants : Bindings Value) :
    let p := Program.ofText text
    let r : RecipeReader := ⟨source, p, knownTypes⟩
    let e : Extraction := ⟨constants, [], p.problems.map (Diagnostic.ofProblem source p.lines)⟩
    extractDeclarations source text knownTypes constants = extractList r ⟨[], false⟩ p.statements e ∧
      ∀ s rest a x, Visits r p.statements ⟨[], false⟩ e (s :: rest) a x →
        (s.passedOver = false ∧ Accounted r p.statements ⟨[], false⟩ e a x s) ∨
        (s.passedOver = true ∧ s.extract r a x = x) := by
  intro p r e
  refine ⟨rfl, ?_⟩
  intro s rest a x h
  cases hpassed : s.passedOver with
  | true => exact .inr ⟨rfl, Statement.extract_of_passedOver hpassed a x⟩
  | false =>
    refine .inl ⟨rfl, ?_⟩
    cases s with
    | command c => exact Command.accounted h hpassed
    | conditional c => exact Conditional.accounted h
    | compound c => exact Compound.accounted h hpassed

/-- A method definition and an assignment with a block are passed over with the resources in them,
although nothing is wrong with the file. -/
theorem definition_and_block_assignment_passedOver :
    let text : Text := "def f\n  package 'x'\nend\ny = z do\n  package 'w'\nend\n"
    let p := Program.ofText text
    p.problems = [] ∧ p.statements.map Statement.passedOver = [true, true] ∧
      extractDeclarations "a.rb" text [("package" : Text)] .empty = ⟨.empty, [], []⟩ := by
  intro text p
  have hproblems : p.problems = [] := by decide +kernel
  have hpassed : p.statements.map Statement.passedOver = [true, true] := by decide +kernel
  refine ⟨hproblems, hpassed, ?_⟩
  obtain ⟨s, more, hstatements, hs, hmore⟩ := List.map_eq_cons_iff.1 hpassed
  obtain ⟨s', last, rfl, hs', hlast⟩ := List.map_eq_cons_iff.1 hmore
  obtain rfl := List.map_eq_nil_iff.1 hlast
  obtain ⟨hextract, hall⟩ := reached_accounted_or_passedOver "a.rb" text [("package" : Text)] .empty
  rw [show (Program.ofText text).statements = [s, s'] from hstatements,
    show (Program.ofText text).problems = [] from hproblems] at hextract hall
  have hfirst := ((hall s _ _ _ .start).resolve_left (by simp [hs])).2
  have hsecond := ((hall s' _ _ _ (.next .start)).resolve_left (by simp [hs'])).2
  rw [hfirst] at hsecond
  rw [hextract, extractList, extractList, extractList, hfirst, hsecond]
  rfl

end Cookbook
