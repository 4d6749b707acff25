import Cookbook.Proofs.Attribute.ConditionalWrites
import Cookbook.Proofs.Declaration.Separation
import Cookbook.Proofs.Statement.Spanning
import Cookbook.Proofs.Value.Reporting

/-!
Conditional assignments. The flag of an assignment is handed down from the conditional around it or comes from
its own modifier; the warning is given where the condition begins, and not again for what is nested. So the
warnings of a file stand for its outermost conditions, and an assignment has the flag if it lies in the stretch
of one of them.

* `outermost` lists the statements of a file that stand in no branch, `outermost_lie` says that they lie one
  after another;
* `Command.Under` ties each command that is read to the outermost statement that it is or stands in;
* `AttributeReader.conditions_run` and `AttributeReader.writes_run` say what the steps of a file report of
  conditions and which assignments they make;
* `Command.flag_iff_of_under` says which commands have the flag;
* `conditional_iff_within_report` is the result for whole files.
-/

namespace Cookbook

/-! ### Outermost statements -/

mutual

/-- The statement, or those that stand in it if it is a `begin`. -/
def Statement.outermost : Statement → List Statement
  | .command c => [.command c]
  | .conditional c => [.conditional c]
  | .compound ⟨extent, head, body, opener, closer⟩ =>
    if opener.text = ("begin" : Text) then outermost body
    else [.compound ⟨extent, head, body, opener, closer⟩]

/-- The statements of an attribute file that stand in no branch. -/
def outermost : List Statement → List Statement
  | [] => []
  | s :: rest => s.outermost ++ outermost rest

end

/-- The extents lie between two indices, one after another. -/
structure ExtentsLie (src : TokenSource) (i j : Nat) (extents : List Extent) : Prop where
  lies : ∀ e ∈ extents, e.Lies src i j
  apart : extents.Pairwise fun e e' => e.stop ≤ e'.start

namespace ExtentsLie

variable {src : TokenSource} {i i' j j' m : Nat} {extents more : List Extent}

theorem singleton {e : Extent} (h : e.Lies src i j) : ExtentsLie src i j [e] where
  lies _ he := List.mem_singleton.1 he ▸ h
  apart := List.pairwise_singleton _ _

theorem mono (h : ExtentsLie src i j extents) (hi : i' ≤ i) (hj : j ≤ j') : ExtentsLie src i' j' extents :=
  ⟨fun e he => (h.lies e he).mono hi hj, h.apart⟩

theorem append (h : ExtentsLie src i m extents) (hmore : ExtentsLie src m j more) (him : i ≤ m) (hmj : m ≤ j) :
    ExtentsLie src i j (extents ++ more) where
  lies e he := (List.mem_append.1 he).elim (fun he => (h.lies e he).mono le_rfl hmj) fun he =>
    (hmore.lies e he).mono him le_rfl
  apart := List.pairwise_append.2
    ⟨h.apart, hmore.apart, fun e he e' he' => (h.lies e he).stop_le_start (hmore.lies e' he')⟩

end ExtentsLie

section Lies

variable {src : TokenSource}

mutual

theorem Statement.outermost_lie : ∀ (s : Statement) {i j : Nat}, s.Lies src i j →
    ExtentsLie src i j (s.outermost.map Statement.extent)
  | .command c, _, _, h => .singleton (Statement.Lies.extent (s := .command c) h)
  | .conditional c, _, _, h => .singleton (Statement.Lies.extent (s := .conditional c) h)
  | .compound ⟨extent, head, body, opener, closer⟩, i, j, h => by
    obtain ⟨hextent, hinside⟩ := Statement.lies_compound.1 h
    obtain ⟨k, m, hk, hm, hlies⟩ := hinside.inside
    rw [Statement.outermost]
    split
    · have hlower : i ≤ extent.firstIndex := hextent.lower
      exact (outermost_lie body hlies).mono (hlower.trans (hk.trans (Nat.le_succ k))) hm
    · exact .singleton hextent

theorem outermost_lie : ∀ (body : List Statement) {i j : Nat}, listLies src i j body →
    ExtentsLie src i j ((outermost body).map Statement.extent)
  | [], _, _, _ => ⟨fun _ he => absurd he List.not_mem_nil, .nil⟩
  | s :: rest, i, j, h => by
    obtain ⟨m, hs, hrest⟩ := h
    rw [outermost, List.map_append]
    exact (s.outermost_lie hs).append (outermost_lie rest hrest) (hs.extent.lower.trans hs.extent.upper.le)
      hrest.le

end

end Lies

/-! ### Commands and conditions -/

/-- What is said of the condition that an outermost statement sets: for a modifier, of the assignment; for a
conditional, of those in its branches. -/
def Statement.condition? : Statement → Option Finding
  | .command c => c.modifier.map fun m => .modifiedAssignment m.word.text
  | .conditional c => some (.conditionalAssignments c.word.text)
  | .compound _ => none

/-- A command is an outermost statement, or stands in the branches of one, and is read as such. -/
inductive Command.Under (c : Command) (conditional : Bool) : Statement → Prop
  | outermost (h : conditional = false) : c.Under conditional (.command c)
  | branch {outer : Conditional} (h : conditional = true) (hwithin : c.extent.Inside outer.extent) :
      c.Under conditional (.conditional outer)

section Steps

variable {c : Command} {conditional : Bool}

mutual

theorem Statement.within_of_step : ∀ (s : Statement) {outer : Extent}, s.extent.Inside outer → s.Spans →
    .command conditional c ∈ s.attributeSteps true → conditional = true ∧ c.extent.Inside outer
  | .command c', outer, hwithin, _, h => by
    obtain ⟨rfl, rfl⟩ := AttributeStep.command.inj (List.mem_singleton.1 h)
    exact ⟨rfl, hwithin⟩
  | .conditional ⟨extent, word, _, branches, _, _⟩, outer, hwithin, hspans, h => by
    rw [Statement.attributeSteps, if_pos rfl, List.nil_append] at h
    obtain ⟨hconditional, hbranches⟩ := within_of_branchStep branches (Statement.spans_conditional.1 hspans) h
    exact ⟨hconditional, hbranches.trans hwithin⟩
  | .compound ⟨extent, _, body, opener, _⟩, outer, hwithin, hspans, h => by
    rw [Statement.attributeSteps] at h
    split at h
    · obtain ⟨hconditional, hbody⟩ := within_of_listStep body (Statement.spans_compound.1 hspans) h
      exact ⟨hconditional, hbody.trans hwithin⟩
    · exact absurd (List.mem_singleton.1 h) AttributeStep.noConfusion

/-- What is read of a list of statements under a condition lies where the statements do. -/
theorem within_of_listStep : ∀ (body : List Statement) {outer : Extent}, listSpanned outer body →
    .command conditional c ∈ attributeSteps true body → conditional = true ∧ c.extent.Inside outer
  | [], _, _, h => absurd h List.not_mem_nil
  | s :: rest, outer, hbody, h => by
    obtain ⟨⟨hwithin, hspans⟩, hrest⟩ := hbody
    rw [attributeSteps] at h
    rcases List.mem_append.1 h with h | h
    · exact s.within_of_step hwithin hspans h
    · exact within_of_listStep rest hrest h

theorem within_of_branchStep : ∀ (branches : List Branch) {outer : Extent}, branchesSpanned outer branches →
    .command conditional c ∈ branchSteps branches → conditional = true ∧ c.extent.Inside outer
  | [], _, _, h => absurd h List.not_mem_nil
  | ⟨_, _, body, _⟩ :: rest, outer, hbranches, h => by
    obtain ⟨hbody, hrest⟩ := hbranches
    rw [branchSteps] at h
    rcases List.mem_append.1 h with h | h
    · exact within_of_listStep body hbody h
    · exact within_of_branchStep rest hrest h

end

mutual

theorem Statement.under_of_step : ∀ s : Statement, s.Spans → .command conditional c ∈ s.attributeSteps false →
    ∃ outer ∈ s.outermost, c.Under conditional outer
  | .command c', _, h => by
    obtain ⟨rfl, rfl⟩ := AttributeStep.command.inj (List.mem_singleton.1 h)
    exact ⟨.command c, List.mem_singleton_self _, .outermost rfl⟩
  | .conditional ⟨extent, word, subject, branches, opener, closer⟩, hspans, h => by
    rw [Statement.attributeSteps, if_neg Bool.false_ne_true, List.singleton_append] at h
    rcases List.mem_cons.1 h with h | h
    · exact absurd h AttributeStep.noConfusion
    · obtain ⟨hconditional, hwithin⟩ := within_of_branchStep branches (Statement.spans_conditional.1 hspans) h
      exact ⟨_, List.mem_singleton_self _, .branch hconditional hwithin⟩
  | .compound ⟨extent, _, body, opener, _⟩, hspans, h => by
    rw [Statement.attributeSteps] at h
    rw [Statement.outermost]
    split at h
    · rename_i hbegin
      rw [if_pos hbegin]
      refine under_of_listStep body (fun s hs => ?_) h
      exact (listSpanned_iff.1 (Statement.spans_compound.1 hspans) s hs).2
    · exact absurd (List.mem_singleton.1 h) AttributeStep.noConfusion

/-- Each command that is read is an outermost statement or stands in the branches of one. -/
theorem under_of_listStep : ∀ body : List Statement, (∀ s ∈ body, s.Spans) →
    .command conditional c ∈ attributeSteps false body → ∃ outer ∈ outermost body, c.Under conditional outer
  | [], _, h => absurd h List.not_mem_nil
  | s :: rest, hbody, h => by
    rw [attributeSteps] at h
    rw [outermost]
    rcases List.mem_append.1 h with h | h
    · obtain ⟨outer, houter, hunder⟩ := s.under_of_step (hbody s List.mem_cons_self) h
      exact ⟨outer, List.mem_append_left _ houter, hunder⟩
    · obtain ⟨outer, houter, hunder⟩ :=
        under_of_listStep rest (fun s hs => hbody s (List.mem_cons_of_mem _ hs)) h
      exact ⟨outer, List.mem_append_right _ houter, hunder⟩

end

end Steps

/-- What a step says of a condition, and where. -/
def AttributeStep.condition? : AttributeStep → Option (Extent × Finding)
  | .command conditional c =>
    if conditional then none else (Statement.command c).condition?.map (c.extent, ·)
  | .report extent finding => if finding.code = .attributeConditional then some (extent, finding) else none

mutual

theorem Statement.conditions_nested : ∀ s : Statement,
    (s.attributeSteps true).filterMap AttributeStep.condition? = []
  | .command c => rfl
  | .conditional ⟨extent, word, _, branches, _, _⟩ => by
    rw [Statement.attributeSteps, if_pos rfl, List.nil_append, conditions_branchSteps branches]
  | .compound ⟨extent, _, body, opener, _⟩ => by
    rw [Statement.attributeSteps]
    split
    · exact conditions_nestedSteps body
    · rfl

theorem conditions_nestedSteps : ∀ body : List Statement,
    (attributeSteps true body).filterMap AttributeStep.condition? = []
  | [] => rfl
  | s :: rest => by
    rw [attributeSteps, List.filterMap_append, s.conditions_nested, conditions_nestedSteps rest, List.nil_append]

theorem conditions_branchSteps : ∀ branches : List Branch,
    (branchSteps branches).filterMap AttributeStep.condition? = []
  | [] => rfl
  | ⟨_, _, body, _⟩ :: rest => by
    rw [branchSteps, List.filterMap_append, conditions_nestedSteps body, conditions_branchSteps rest,
      List.nil_append]

end

/-- What is said of the condition of an outermost statement, and where. -/
def Statement.report? (s : Statement) : Option (Extent × Finding) := s.condition?.map (s.extent, ·)

mutual

theorem Statement.conditions_steps : ∀ s : Statement,
    (s.attributeSteps false).filterMap AttributeStep.condition? = s.outermost.filterMap Statement.report?
  | .command c => rfl
  | .conditional ⟨extent, word, _, branches, _, _⟩ => by
    rw [Statement.attributeSteps, if_neg Bool.false_ne_true, List.filterMap_append, conditions_branchSteps,
      List.append_nil]
    rfl
  | .compound ⟨extent, _, body, opener, _⟩ => by
    rw [Statement.attributeSteps, Statement.outermost]
    split
    · exact conditions_steps body
    · rfl

/-- What is said of conditions is said of the outermost statements, in order. -/
theorem conditions_steps : ∀ body : List Statement,
    (attributeSteps false body).filterMap AttributeStep.condition? =
      (outermost body).filterMap Statement.report?
  | [] => rfl
  | s :: rest => by
    rw [attributeSteps, outermost, List.filterMap_append, List.filterMap_append, s.conditions_steps,
      conditions_steps rest]

end

/-! ### What reading adds -/

def conditionWarning (source : Text) (p : Program) (said : Extent × Finding) : Diagnostic :=
  ⟨said.2, source, p.spanOf said.1, none⟩

/-- The step makes the assignment: at the stretch of its command, and with the flag handed down or the
command's own. -/
def AttributeStep.Writes (p : Program) (a : Assignment) (step : AttributeStep) : Prop :=
  ∃ conditional c, step = .command conditional c ∧ a.span = some (p.spanOf c.extent) ∧
    a.conditional = (conditional || c.modifier.isSome)

namespace AttributeReader

def conditions (r : AttributeReader) : List Diagnostic :=
  r.diagnostics.filter (·.code == .attributeConditional)

section Run

variable (r : AttributeReader) (source : Text) (p : Program)

theorem conditions_report (span : Span) {finding : Finding} (h : finding.code ≠ .attributeConditional) :
    (r.report source span finding).conditions = r.conditions := by
  unfold conditions report
  rw [List.filter_append, List.filter_cons_of_neg (by simpa [Diagnostic.code] using h), List.filter_nil,
    List.append_nil]

theorem conditions_report_condition (span : Span) {finding : Finding}
    (h : finding.code = .attributeConditional) :
    (r.report source span finding).conditions = r.conditions ++ [⟨finding, source, span, none⟩] := by
  unfold conditions report
  rw [List.filter_append, List.filter_cons_of_pos (by simpa [Diagnostic.code] using h), List.filter_nil]

theorem conditions_assign (lines : LineIndex) (target : AssignmentTarget) (span : Span) (conditional : Bool)
    (right : List Token) :
    (r.assign source lines target span conditional right).conditions = r.conditions := by
  unfold conditions assign
  rw [List.filter_append, NormalizeContext.filter_code_normalize _ right (by decide), List.append_nil]

theorem conditions_setLocal (lines : LineIndex) (name : Text) (isModified : Bool) (right : List Token) :
    (r.setLocal source lines name isModified right).conditions = r.conditions := by
  unfold setLocal
  dsimp only
  split <;> rfl

theorem conditions_warned (conditional : Bool) (c : Command) :
    (r.warned source p conditional c).conditions = r.conditions ++
      ((AttributeStep.command conditional c).condition?.map (conditionWarning source p)).toList := by
  cases hmodifier : c.modifier with
  | none => simp [warned, AttributeStep.condition?, Statement.condition?, hmodifier]
  | some m =>
    cases conditional with
    | true => simp [warned, AttributeStep.condition?, hmodifier]
    | false =>
      have hcode : (Finding.modifiedAssignment m.word.text).code = .attributeConditional := rfl
      have hreport := r.conditions_report_condition source (p.spanOf c.extent) hcode
      simpa [warned, AttributeStep.condition?, Statement.condition?, conditionWarning, hmodifier] using hreport

/-- A command reports nothing of conditions but what is said of its modifier. -/
theorem conditions_command (conditional : Bool) (c : Command) :
    (r.command source p conditional c).conditions = (r.warned source p conditional c).conditions := by
  rw [command_eq]
  generalize r.warned source p conditional c = w
  dsimp only
  split
  · exact w.conditions_report source _ nofun
  · split
    · exact w.conditions_report source _ nofun
    · split
      · exact w.conditions_setLocal source _ _ _ _
      · split
        · exact w.conditions_report source _ nofun
        · split
          · rfl
          · exact w.conditions_assign source _ _ _ _ _

theorem conditions_step (step : AttributeStep) : (step.run source p r).conditions =
    r.conditions ++ (step.condition?.map (conditionWarning source p)).toList := by
  cases step with
  | command conditional c =>
    exact (r.conditions_command source p conditional c).trans (r.conditions_warned source p conditional c)
  | report extent finding =>
    show (r.report source (p.spanOf extent) finding).conditions = _
    by_cases hcode : finding.code = .attributeConditional
    · rw [r.conditions_report_condition source _ hcode]
      simp [AttributeStep.condition?, conditionWarning, hcode]
    · rw [r.conditions_report source _ hcode]
      simp [AttributeStep.condition?, hcode]

/-- The warnings about conditions are those of what the steps say of them, in order. -/
theorem conditions_run (steps : List AttributeStep) :
    (steps.foldl (AttributeStep.run source p) r).conditions =
      r.conditions ++ (steps.filterMap AttributeStep.condition?).map (conditionWarning source p) := by
  induction steps generalizing r with
  | nil => exact (List.append_nil _).symm
  | cons step steps ih =>
    rw [List.foldl_cons, ih, conditions_step, List.append_assoc, List.filterMap_cons]
    cases step.condition? <;> rfl

/-- An assignment that a command makes has its stretch and its flag. -/
theorem writes_command (conditional : Bool) (c : Command) {a : Assignment}
    (ha : a ∈ (r.command source p conditional c).assignments) :
    a ∈ r.assignments ∨ (AttributeStep.command conditional c).Writes p a := by
  obtain ⟨-, -, hkept⟩ := r.warned_keeps source p conditional c
  rw [command_eq] at ha
  generalize r.warned source p conditional c = w at hkept ha
  rw [← hkept]
  dsimp only at ha
  split at ha
  · exact .inl ha
  · split at ha
    · exact .inl ha
    · split at ha
      · exact .inl ((w.setLocal_keeps source _ _ _ _).2 ▸ ha)
      · split at ha
        · exact .inl ha
        · split at ha
          · exact .inl ha
          · refine (List.mem_append.1 ha).imp_right fun ha => ?_
            obtain rfl := List.mem_singleton.1 ha
            exact ⟨conditional, c, rfl, rfl, rfl⟩

/-- Each assignment is made by one of the steps. -/
theorem writes_run (steps : List AttributeStep) {a : Assignment}
    (ha : a ∈ (steps.foldl (AttributeStep.run source p) r).assignments) :
    a ∈ r.assignments ∨ ∃ step ∈ steps, step.Writes p a := by
  induction steps generalizing r with
  | nil => exact .inl ha
  | cons step steps ih =>
    rcases ih (step.run source p r) ha with ha | ⟨later, hlater, hwrites⟩
    · cases step with
      | report extent finding => exact .inl ha
      | command conditional c =>
        exact (r.writes_command source p conditional c ha).imp_right fun h => ⟨_, List.mem_cons_self, h⟩
    · exact .inr ⟨later, List.mem_cons_of_mem _ hlater, hwrites⟩

end Run

end AttributeReader

/-! ### Whole files -/

section File

variable {text : Text} {e e' : Extent} {i j i' j' : Nat}

/-- An extent in another gives a stretch in that of the other. -/
theorem Extent.Inside.span_within (h : e.Inside e') :
    ((Program.ofText text).spanOf e).within ((Program.ofText text).spanOf e') = true := by
  have hstart := h.1
  have hstop := h.2
  unfold Span.within
  rw [Bool.and_eq_true, decide_eq_true_eq, decide_eq_true_eq, Program.offset_start_spanOf,
    Program.offset_start_spanOf, Program.offset_stop_spanOf, Program.offset_stop_spanOf]
  omega

/-- Of extents that are apart, neither gives a stretch in that of the other. -/
theorem Extent.Lies.span_not_within (h : e.Lies (TokenSource.ofText text) i j)
    (h' : e'.Lies (TokenSource.ofText text) i' j') (hapart : e.stop ≤ e'.start ∨ e'.stop ≤ e.start) :
    ¬ ((Program.ofText text).spanOf e).within ((Program.ofText text).spanOf e') = true := by
  have hpos := h.nonempty
  have hlt := h.start_lt
  have hlt' := h'.start_lt
  unfold Span.within
  rw [Bool.and_eq_true, decide_eq_true_eq, decide_eq_true_eq, Program.offset_start_spanOf,
    Program.offset_start_spanOf, Program.offset_stop_spanOf, Program.offset_stop_spanOf]
  omega

/-- The outermost statements of a file lie one after another. -/
theorem outermost_ofText (text : Text) : ∃ j, ExtentsLie (TokenSource.ofText text) 0 j
    ((outermost (Program.ofText text).statements).map Statement.extent) := by
  obtain ⟨j, hlies⟩ := Program.listLies_ofText text
  exact ⟨j, outermost_lie _ hlies⟩

/-- A command under an outermost statement has the flag exactly if it lies in one that sets a condition. -/
theorem Command.flag_iff_of_under {c : Command} {conditional : Bool} {outer : Statement}
    (h : c.Under conditional outer) (houter : outer ∈ outermost (Program.ofText text).statements) :
    (conditional || c.modifier.isSome) = true ↔
      ∃ s ∈ outermost (Program.ofText text).statements, s.condition?.isSome = true ∧
        ((Program.ofText text).spanOf c.extent).within ((Program.ofText text).spanOf s.extent) = true := by
  cases h with
  | branch hconditional hwithin =>
    rw [hconditional, Bool.true_or, eq_self, true_iff]
    exact ⟨_, houter, rfl, hwithin.span_within⟩
  | outermost hconditional =>
    have hcondition : (Statement.command c).condition?.isSome = c.modifier.isSome := Option.isSome_map
    rw [hconditional, Bool.false_or, ← hcondition]
    constructor
    · intro hsome
      exact ⟨_, houter, hsome, Extent.Inside.span_within ⟨le_rfl, le_rfl⟩⟩
    · rintro ⟨s, hs, hsome, hwithin⟩
      obtain ⟨j, hextents⟩ := outermost_ofText text
      have hlies : ∀ s ∈ outermost (Program.ofText text).statements,
          s.extent.Lies (TokenSource.ofText text) 0 j :=
        fun s hs => hextents.lies _ (List.mem_map_of_mem hs)
      rcases eq_or_rel_of_pairwise (List.pairwise_map.1 hextents.apart) houter hs with rfl | hapart
      · exact hsome
      · exact absurd hwithin ((hlies _ houter).span_not_within (hlies s hs) hapart)

end File

namespace AttributeFile

variable (source text : Text) (startIndex : Int) (assigned : AssignedPaths)

/-- The warnings of a file about conditions are those about its outermost statements. -/
theorem conditions_ofText :
    let p := Program.ofText text
    (ofText source text startIndex assigned).diagnostics.filter (·.code == .attributeConditional) =
      (outermost p.statements).filterMap fun s =>
        s.condition?.map fun finding => ⟨finding, source, p.spanOf s.extent, none⟩ := by
  intro p
  let start : AttributeReader :=
    ⟨.empty, assigned, [], p.problems.map (Diagnostic.ofProblem source p.lines), startIndex⟩
  have hstart : start.conditions = [] := Diagnostic.filter_code_ofProblem source p.lines p.problems (by decide)
  have hrun := start.conditions_run source p (attributeSteps false p.statements)
  rw [hstart, List.nil_append, conditions_steps, List.map_filterMap] at hrun
  rw [ofText_eq ⟨source, text⟩ startIndex assigned]
  refine hrun.trans (List.filterMap_congr fun s _ => ?_)
  rw [Statement.report?, Option.map_map]
  rfl

/-- The stretches of these warnings are those of the outermost statements that set a condition. -/
theorem exists_report_iff (span : Span) :
    (∃ d ∈ (ofText source text startIndex assigned).diagnostics.filter (·.code == .attributeConditional),
      d.span = span) ↔ ∃ s ∈ outermost (Program.ofText text).statements,
        s.condition?.isSome = true ∧ (Program.ofText text).spanOf s.extent = span := by
  simp only [conditions_ofText, List.mem_filterMap, Option.map_eq_some_iff, Option.isSome_iff_exists]
  constructor
  · rintro ⟨d, ⟨s, hs, finding, hfinding, rfl⟩, rfl⟩
    exact ⟨s, hs, ⟨finding, hfinding⟩, rfl⟩
  · rintro ⟨s, hs, ⟨finding, hfinding⟩, rfl⟩
    exact ⟨_, ⟨s, hs, finding, hfinding, rfl⟩, rfl⟩

/-- Each assignment of a file is that of a command which is an outermost statement or stands in the branches
of one. -/
theorem under_of_mem {a : Assignment} (ha : a ∈ (ofText source text startIndex assigned).assignments) :
    let p := Program.ofText text
    ∃ (conditional : Bool) (c : Command), a.span = some (p.spanOf c.extent) ∧
      a.conditional = (conditional || c.modifier.isSome) ∧
      ∃ outer ∈ outermost p.statements, c.Under conditional outer := by
  intro p
  rw [ofText_eq ⟨source, text⟩ startIndex assigned] at ha
  rcases AttributeReader.writes_run _ source p (attributeSteps false p.statements) ha with
    ha | ⟨_, hstep, conditional, c, rfl, hspan, hflag⟩
  · exact absurd ha List.not_mem_nil
  · exact ⟨conditional, c, hspan, hflag, under_of_listStep p.statements (Program.spans_of_mem text) hstep⟩

end AttributeFile

/-- The warnings of an attribute file about conditions are one for each outermost statement that is a
conditional or has a modifier, in order and at the stretch of that statement; their stretches take something
and are disjoint. An assignment of the file is marked as conditional if and only if its stretch lies within that
of such a warning. -/
theorem conditional_iff_within_report (source text : Text) (startIndex : Int) (assigned : AssignedPaths) :
    let p := Program.ofText text
    let file := AttributeFile.ofText source text startIndex assigned
    let reported := file.diagnostics.filter (·.code == .attributeConditional)
    (∀ a ∈ file.assignments, ∃ span, a.span = some span ∧
      (a.conditional = true ↔ ∃ d ∈ reported, span.within d.span = true)) ∧
    (reported = (outermost p.statements).filterMap fun s =>
      s.condition?.map fun finding => ⟨finding, source, p.spanOf s.extent, none⟩) ∧
    (reported.Pairwise fun d d' => d.span.stop.offset ≤ d'.span.start.offset) ∧
    ∀ d ∈ reported, d.span.start.offset < d.span.stop.offset := by
  intro p file reported
  obtain ⟨j, hextents⟩ := outermost_ofText text
  have hreported : reported = _ := AttributeFile.conditions_ofText source text startIndex assigned
  have hspans := AttributeFile.exists_report_iff source text startIndex assigned
  refine ⟨fun a ha => ?_, hreported, ?_, fun d hd => ?_⟩
  · obtain ⟨conditional, c, hspan, hflag, outer, houter, hunder⟩ :=
      AttributeFile.under_of_mem source text startIndex assigned ha
    refine ⟨_, hspan, ?_⟩
    rw [hflag, Command.flag_iff_of_under hunder houter]
    constructor
    · rintro ⟨s, hs, hsome, hwithin⟩
      obtain ⟨d, hd, hdspan⟩ := (hspans _).2 ⟨s, hs, hsome, rfl⟩
      exact ⟨d, hd, hdspan ▸ hwithin⟩
    · rintro ⟨d, hd, hwithin⟩
      obtain ⟨s, hs, hsome, hdspan⟩ := (hspans _).1 ⟨d, hd, rfl⟩
      exact ⟨s, hs, hsome, hdspan ▸ hwithin⟩
  · rw [hreported, List.pairwise_filterMap]
    refine (List.pairwise_map.1 hextents.apart).imp fun hle d hd d' hd' => ?_
    obtain ⟨_, -, rfl⟩ := Option.map_eq_some_iff.1 hd
    obtain ⟨_, -, rfl⟩ := Option.map_eq_some_iff.1 hd'
    rw [Program.offset_start_spanOf, Program.offset_stop_spanOf]
    omega
  · obtain ⟨s, hs, -, hdspan⟩ := (hspans _).1 ⟨d, hd, rfl⟩
    have hlies := hextents.lies _ (List.mem_map_of_mem hs)
    have hpos := hlies.nonempty
    have hlt := hlies.start_lt
    rw [← hdspan, Program.offset_start_spanOf, Program.offset_stop_spanOf]
    omega

end Cookbook
