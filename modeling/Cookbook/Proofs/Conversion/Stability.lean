import Cookbook.Conversion.Recipe
import Cookbook.Proofs.Declaration.Composition
import Cookbook.Proofs.Declaration.Reaching
import Cookbook.Proofs.Outcome

/-!
What later statements of a recipe can change about the task of a declaration. The declaration itself
is read with the names in force where it stands; the conditions around it and its guards are read
with those at the end of the recipe. So its name, module, parameters and keywords stay as they are
when more statements follow, and its condition does exactly when these readings agree.

* `Declaration.ReadsAlike` says that the readings agree;
* `condition_ofDeclaration_iff` is the condition of one declaration;
* `task_unchanged_iff` is the result for whole recipes.
-/

namespace Cookbook

/-! ### Readings -/

/-- The condition of a branch as it enters that of a task, before negation. -/
def ContextCondition.readAs (names : Bindings Value) (c : ContextCondition) : Condition :=
  (c.reading? names).getD (.verbatim c.raw)

/-- The condition of a guard as it enters that of a task, before negation. -/
def Guard.readAs (names : Bindings Value) (g : Guard) : Condition :=
  (g.reading? names).getD (.verbatim g.raw)

/-- All conditions around the declaration and all its guards are read the same with either names. -/
structure Declaration.ReadsAlike (names names' : Bindings Value) (d : Declaration) : Prop where
  context : ∀ c ∈ d.context, c.readAs names' = c.readAs names
  guards : ∀ g ∈ d.guards, g.readAs names' = g.readAs names

theorem ConditionReading.ofReading_condition_inj {read read' : Option Condition} (raw : Text)
    (finding : Finding) (source : Text) (span : Span) (negated : Bool) :
    (ofReading read' raw finding source span negated).condition =
        (ofReading read raw finding source span negated).condition ↔
      read'.getD (.verbatim raw) = read.getD (.verbatim raw) := by
  cases negated with
  | false => exact Iff.rfl
  | true => exact ⟨Condition.not.inj, congrArg Condition.not⟩

/-- A conjunction is the same only if its members are. -/
theorem Condition.allOf?_inj {cs cs' : List Condition} (h : cs'.length = cs.length) :
    allOf? cs' = allOf? cs ↔ cs' = cs := by
  refine ⟨?_, congrArg allOf?⟩
  intro heq
  match cs, cs' with
  | [], [] => rfl
  | [c], [c'] => rw [Option.some.inj heq]
  | c :: d :: rest, c' :: d' :: rest' => exact Condition.all.inj (Option.some.inj heq)

/-! ### One declaration -/

namespace RecipeEnvironment

/-- The declaration with its attributes replaced, if the settings say so. -/
def resolved (env : RecipeEnvironment) (d : Declaration) : Declaration :=
  if env.settings.resolveAttributes then (d.resolve env.attributes).declaration else d

variable (env : RecipeEnvironment) (source : Text) (names names' : Bindings Value) (d : Declaration)

theorem declaration_ofDeclaration :
    (ReadyDeclaration.ofDeclaration env source names d).declaration = env.resolved d := by
  unfold ReadyDeclaration.ofDeclaration resolved
  cases env.settings.resolveAttributes <;> rfl

theorem condition_ofDeclaration :
    (ReadyDeclaration.ofDeclaration env source names d).condition =
      Condition.allOf? ((env.resolved d).context.map (·.toCondition source names |>.condition) ++
        (env.resolved d).guards.map (·.toCondition source names |>.condition)) := by
  rw [← declaration_ofDeclaration env source names d]
  unfold ReadyDeclaration.ofDeclaration
  simp only [List.map_append, List.map_map]
  rfl

/-- Attributes are replaced only where the names in force do not count. -/
theorem readsAlike_resolved_iff :
    (env.resolved d).ReadsAlike names names' ↔ d.ReadsAlike names names' := by
  unfold resolved
  split
  · have hguard : ∀ g : Guard, ((Declaration.resolveGuard env.attributes g).1.readAs names' =
        (Declaration.resolveGuard env.attributes g).1.readAs names ↔
          g.readAs names' = g.readAs names) := by
      rintro ⟨kind, form, span⟩
      cases form with
      | command v => exact ⟨fun _ => rfl, fun _ => rfl⟩
      | block body code => exact Iff.rfl
    have hguards : (d.resolve env.attributes).declaration.guards =
        d.guards.map fun g => (Declaration.resolveGuard env.attributes g).1 := List.map_map
    constructor
    · intro h
      refine ⟨h.context, fun g hg => (hguard g).1 (h.guards _ ?_)⟩
      rw [hguards]
      exact List.mem_map_of_mem hg
    · intro h
      refine ⟨h.context, ?_⟩
      rw [hguards, List.forall_mem_map]
      exact fun g hg => (hguard g).2 (h.guards g hg)
  · exact Iff.rfl

/-- The condition of a declaration is the same with other names exactly when all its readings are. -/
theorem condition_ofDeclaration_iff :
    (ReadyDeclaration.ofDeclaration env source names' d).condition =
        (ReadyDeclaration.ofDeclaration env source names d).condition ↔
      d.ReadsAlike names names' := by
  rw [← readsAlike_resolved_iff env, condition_ofDeclaration, condition_ofDeclaration,
    Condition.allOf?_inj (by simp)]
  generalize env.resolved d = d
  have hcontext : ∀ c : ContextCondition, ((c.toCondition source names').condition =
      (c.toCondition source names).condition ↔ c.readAs names' = c.readAs names) := fun c =>
    ConditionReading.ofReading_condition_inj _ _ _ _ _
  have hguard : ∀ g : Guard, ((g.toCondition source names').condition =
      (g.toCondition source names).condition ↔ g.readAs names' = g.readAs names) := fun g =>
    ConditionReading.ofReading_condition_inj _ _ _ _ _
  constructor
  · intro h
    obtain ⟨hcontexts, hguards⟩ := List.append_inj h (by simp)
    exact ⟨fun c hc => (hcontext c).1 (List.map_inj_left.1 hcontexts c hc),
      fun g hg => (hguard g).1 (List.map_inj_left.1 hguards g hg)⟩
  · intro h
    rw [List.map_inj_left.2 fun c hc => (hcontext c).2 (h.context c hc),
      List.map_inj_left.2 fun g hg => (hguard g).2 (h.guards g hg)]

end RecipeEnvironment

/-! ### Tasks -/

def ConvertedTask.whenText (t : ConvertedTask) : Option Text := t.condition.bind Condition.when?

/-- What a task says apart from its condition and from other tasks. -/
structure ConvertedTask.SameCall (t t' : ConvertedTask) : Prop where
  name : t'.name = t.name
  module : t'.module = t.module
  parameters : t'.parameters = t.parameters
  keywords : t'.keywords = t.keywords
  span : t'.span = t.span
  ref : t'.ref = t.ref

/-- What is made of a recipe: a task for each declaration, and a handler for each group of notifications. -/
theorem RecipeStage.products_eq_ok_iff {s : RecipeStage} {made : RecipeProducts} :
    s.products = .ok made ↔
      List.Forall₂ (fun pair t => s.task pair.1 pair.2 = .ok t) s.ready.zipIdx made.tasks ∧
        List.Forall₂ (fun spec h => s.handler spec = .ok h) s.graph.handlers made.handlers := by
  unfold RecipeStage.products
  rw [Except.bind_eq_ok_iff]
  simp only [Except.bind_eq_ok_iff, Except.mapM_eq_ok_iff]
  constructor
  · rintro ⟨tasks, htasks, handlers, hhandlers, h⟩
    obtain rfl := Except.ok.inj h
    exact ⟨htasks, hhandlers⟩
  · rintro ⟨htasks, hhandlers⟩
    exact ⟨made.tasks, htasks, made.handlers, hhandlers, rfl⟩

theorem RecipeStage.exists_task_of_products {s : RecipeStage} {made : RecipeProducts}
    (hmade : s.products = .ok made) {i : Nat} {r : ReadyDeclaration} (hr : s.ready[i]? = some r) :
    ∃ t, s.task r i = .ok t ∧ (s.conversion made).tasks[i]? = some t.result := by
  have hpair : s.ready.zipIdx[i]? = some (r, i) := by
    rw [List.getElem?_zipIdx, hr, Nat.zero_add]
    rfl
  obtain ⟨t, ht, htask⟩ := exists_getElem?_of_forall₂ (RecipeStage.products_eq_ok_iff.1 hmade).1 hpair
  refine ⟨t, htask, ?_⟩
  show (made.tasks.map (·.result))[i]? = _
  rw [List.getElem?_map, ht]
  rfl

theorem RecipeStage.ready_ofText (env : RecipeEnvironment) (source text : Text) :
    (RecipeStage.ofText env source text).ready =
      (extractDeclarations source text env.knownTypes .empty).declarations.map
        (.ofDeclaration env source
          (extractDeclarations source text env.knownTypes .empty).constants) := rfl

theorem RecipeRun.ofText_eq_ok_iff {env : RecipeEnvironment} {file : SourceFile} {run : RecipeRun} :
    RecipeRun.ofText env file = .ok run ↔
      let stage := RecipeStage.ofText env file.source file.text
      ∃ made, stage.products = .ok made ∧
        run = ⟨stage.conversion made, stage.phases made file.text.length⟩ := by
  unfold RecipeRun.ofText
  rw [Except.bind_eq_ok_iff]
  constructor
  · rintro ⟨made, hmade, h⟩
    exact ⟨made, hmade, (Except.ok.inj h).symm⟩
  · rintro ⟨made, hmade, rfl⟩
    exact ⟨made, hmade, rfl⟩

theorem RecipeRun.task_of_declaration {env : RecipeEnvironment} {source text : Text} {run : RecipeRun}
    (hrun : RecipeRun.ofText env ⟨source, text⟩ = .ok run) {i : Nat} {d : Declaration}
    (hd : (extractDeclarations source text env.knownTypes .empty).declarations[i]? = some d) :
    ∃ t, (RecipeStage.ofText env source text).task (.ofDeclaration env source
        (extractDeclarations source text env.knownTypes .empty).constants d) i = .ok t ∧
      run.conversion.tasks[i]? = some t.result := by
  obtain ⟨made, hmade, rfl⟩ := RecipeRun.ofText_eq_ok_iff.1 hrun
  refine RecipeStage.exists_task_of_products hmade ?_
  rw [RecipeStage.ready_ofText, List.getElem?_map, hd]
  rfl

/-- What a task is made of: the declaration as it is mapped, and the actions that run right after it. -/
theorem RecipeStage.task_eq_ok_iff {s : RecipeStage} {r : ReadyDeclaration} {i : Nat}
    {t : Reported ConvertedTask} :
    s.task r i = .ok t ↔
      ∃ mapped posts, r.declaration.map s.ctx r.declaration.actions = .ok mapped ∧
        (s.graph.postActions.getD i []).mapM (s.postAction r.declaration.span) = .ok posts ∧
        t = s.taskOf r i mapped posts := by
  unfold RecipeStage.task
  simp only [Except.bind_eq_ok_iff]
  constructor
  · rintro ⟨mapped, hmapped, posts, hposts, h⟩
    exact ⟨mapped, posts, hmapped, hposts, (Except.ok.inj h).symm⟩
  · rintro ⟨mapped, posts, hmapped, hposts, rfl⟩
    exact ⟨mapped, hmapped, posts, hposts, rfl⟩

theorem RecipeStage.condition_task {s : RecipeStage} {r : ReadyDeclaration} {i : Nat}
    {t : Reported ConvertedTask} (h : s.task r i = .ok t) : t.result.condition = r.condition := by
  obtain ⟨mapped, posts, -, -, rfl⟩ := RecipeStage.task_eq_ok_iff.1 h
  rfl

/-- Two stages with the same settings make the same call for the same declaration. -/
theorem RecipeStage.sameCall_task {s s' : RecipeStage} (henv : s'.env = s.env)
    (hsource : s'.source = s.source) {r r' : ReadyDeclaration} (hr : r'.declaration = r.declaration)
    {i : Nat} {t t' : Reported ConvertedTask} (ht : s.task r i = .ok t) (ht' : s'.task r' i = .ok t') :
    t.result.SameCall t'.result := by
  have hctx : s'.ctx = s.ctx := by
    unfold RecipeStage.ctx
    rw [henv, hsource]
  have hactions : s'.namingActions = s.namingActions := by
    funext d
    unfold RecipeStage.namingActions
    rw [henv]
  obtain ⟨mapped, posts, hmapped, -, rfl⟩ := RecipeStage.task_eq_ok_iff.1 ht
  obtain ⟨mapped', posts', hmapped', -, rfl⟩ := RecipeStage.task_eq_ok_iff.1 ht'
  obtain rfl : mapped = mapped' := by
    rw [hr, hctx, hmapped] at hmapped'
    exact Except.ok.inj hmapped'
  unfold RecipeStage.taskOf ReadyDeclaration.ref
  rw [hr, hactions]
  exact ⟨rfl, rfl, rfl, rfl, rfl, rfl⟩

/-- A recipe that starts with the statements of another one starts with its declarations. -/
theorem declarations_of_statements_append {before after : Text} {more : List Statement}
    (h : (Program.ofText (before ++ after)).statements = (Program.ofText before).statements ++ more)
    (source : Text) (knownTypes : List Text) (constants : Bindings Value) :
    (extractDeclarations source before knownTypes constants).declarations <+:
      (extractDeclarations source (before ++ after) knownTypes constants).declarations := by
  let r : RecipeReader := ⟨source, .ofText (before ++ after), knownTypes⟩
  let start : Extraction := ⟨constants, [], r.program.problems.map (.ofProblem source r.program.lines)⟩
  obtain ⟨hfirst, -⟩ := extractList_before source before after knownTypes start
  have hwhole : extractDeclarations source (before ++ after) knownTypes constants =
      extractList r ⟨[], false⟩ more
        (extractList r ⟨[], false⟩ (Program.ofText before).statements start) := by
    show extractList r ⟨[], false⟩ (Program.ofText (before ++ after)).statements start = _
    rw [h, extractList_append]
  have hwell : WellBranched more :=
    (Program.wellBranched_ofText (before ++ after)).of_subset fun s hs => by
      rw [h]
      exact List.mem_append_right _ hs
  obtain ⟨later, hlater, -⟩ := declares_list r (fun _ => true) more hwell 0 ⟨[], false⟩
    (extractList r ⟨[], false⟩ (Program.ofText before).statements start)
  rw [hwhole, hlater, hfirst]
  exact List.prefix_append _ _

/-- Statements that follow a declaration change nothing about its task but the condition, and that
one exactly when a condition around the declaration or one of its guards reads differently with the
names in force at the end of the longer recipe. Both recipes are taken to be converted. -/
theorem task_unchanged_iff (env : RecipeEnvironment) (source : Text) {before after : Text}
    {more : List Statement}
    (h : (Program.ofText (before ++ after)).statements =
      (Program.ofText before).statements ++ more)
    {run run' : RecipeRun} (hrun : RecipeRun.ofText env ⟨source, before⟩ = .ok run)
    (hrun' : RecipeRun.ofText env ⟨source, before ++ after⟩ = .ok run') :
    let alone := extractDeclarations source before env.knownTypes .empty
    let whole := extractDeclarations source (before ++ after) env.knownTypes .empty
    ∀ (i : Nat) (d : Declaration), alone.declarations[i]? = some d →
      ∃ t t' : ConvertedTask,
        run.conversion.tasks[i]? = some t ∧ run'.conversion.tasks[i]? = some t' ∧
        t.SameCall t' ∧
        (t'.condition = t.condition ∧ t'.whenText = t.whenText ↔
          d.ReadsAlike alone.constants whole.constants) := by
  intro alone whole i d hd
  have hd' : whole.declarations[i]? = some d := by
    obtain ⟨later, hlater⟩ := declarations_of_statements_append h source env.knownTypes .empty
    have hi : i < alone.declarations.length := (List.getElem?_eq_some_iff.1 hd).1
    rw [show whole.declarations = alone.declarations ++ later from hlater.symm,
      List.getElem?_append_left hi, hd]
  let r := ReadyDeclaration.ofDeclaration env source alone.constants d
  let r' := ReadyDeclaration.ofDeclaration env source whole.constants d
  have hdeclaration : r'.declaration = r.declaration := by
    rw [env.declaration_ofDeclaration, env.declaration_ofDeclaration]
  let s := RecipeStage.ofText env source before
  let s' := RecipeStage.ofText env source (before ++ after)
  have henv : s'.env = s.env := rfl
  have hsource : s'.source = s.source := rfl
  -- both runs make their task from the one declaration, so that they differ in its condition only
  obtain ⟨t, ht, htask⟩ := RecipeRun.task_of_declaration hrun hd
  obtain ⟨t', ht', htask'⟩ := RecipeRun.task_of_declaration hrun' hd'
  have hcall := RecipeStage.sameCall_task henv hsource hdeclaration ht ht'
  refine ⟨t.result, t'.result, htask, htask', hcall, ?_⟩
  have hcondition : r'.condition = r.condition ↔ d.ReadsAlike alone.constants whole.constants :=
    env.condition_ofDeclaration_iff source _ _ d
  unfold ConvertedTask.whenText
  rw [← hcondition, RecipeStage.condition_task ht, RecipeStage.condition_task ht']
  constructor
  · exact And.left
  · intro heq
    exact ⟨heq, by rw [heq]⟩

theorem task_changed_by_reassignment :
    let env : RecipeEnvironment := ⟨.standard, .empty, ⟨[]⟩, .empty⟩
    let before : Text := "x = 1\nfile 'p' do\n  only_if \x7b x \x7d\nend\n"
    let after : Text := "x = 2\n"
    let alone := extractDeclarations "a.rb" before env.knownTypes .empty
    let whole := extractDeclarations "a.rb" (before ++ after) env.knownTypes .empty
    ∃ (run run' : RecipeRun) (d : Declaration) (t t' : ConvertedTask),
      RecipeRun.ofText env ⟨"a.rb", before⟩ = .ok run ∧
      RecipeRun.ofText env ⟨"a.rb", before ++ after⟩ = .ok run' ∧
      alone.declarations[0]? = some d ∧
      run.conversion.tasks[0]? = some t ∧ run'.conversion.tasks[0]? = some t' ∧
      t.SameCall t' ∧ ¬ d.ReadsAlike alone.constants whole.constants ∧
      t.whenText = some (Text.ofString "1 | bool") ∧
      t'.whenText = some (Text.ofString "2 | bool") := by
  intro env before after alone whole
  have hclosed : before.ClosedBefore after := by decide +kernel
  have hsome : alone.declarations[0]?.isSome = true := by decide +kernel
  have hwhen : ((RecipeRun.ofText env ⟨"a.rb", before⟩).toOption.bind fun run =>
      run.conversion.tasks[0]?.map (·.whenText)) = some (some (Text.ofString "1 | bool")) := by
    decide +kernel
  have hwhen' : ((RecipeRun.ofText env ⟨"a.rb", before ++ after⟩).toOption.bind fun run =>
      run.conversion.tasks[0]?.map (·.whenText)) = some (some (Text.ofString "2 | bool")) := by
    decide +kernel
  obtain ⟨run, hrun, hone⟩ := Option.bind_eq_some_iff.1 hwhen
  obtain ⟨run', hrun', htwo⟩ := Option.bind_eq_some_iff.1 hwhen'
  replace hrun := Except.eq_ok_of_toOption hrun
  replace hrun' := Except.eq_ok_of_toOption hrun'
  obtain ⟨d, hd⟩ := Option.isSome_iff_exists.1 hsome
  obtain ⟨t, t', ht, ht', hcall, hiff⟩ :=
    task_unchanged_iff env "a.rb" hclosed.statements hrun hrun' 0 d hd
  rw [ht] at hone
  rw [ht'] at htwo
  replace hone : t.whenText = _ := Option.some.inj hone
  replace htwo : t'.whenText = _ := Option.some.inj htwo
  refine ⟨run, run', d, t, t', hrun, hrun', hd, ht, ht', hcall, fun hreads => ?_, hone, htwo⟩
  have hsame := (hiff.2 hreads).2
  rw [hone, htwo] at hsame
  exact absurd hsame (by decide)

end Cookbook
