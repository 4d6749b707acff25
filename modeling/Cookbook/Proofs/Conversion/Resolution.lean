import Cookbook.Conversion.Basic
import Cookbook.Proofs.Conversion.Stability
import Cookbook.Proofs.Declaration.Resolution
import Cookbook.Proofs.Diagnostic.Order

/-!
What the setting that has attributes replaced changes where none is assigned. The declarations of a recipe
are then as they were read, each with a warning for every path in it; tasks and handlers are made from them
as without the setting, and the warnings are all that comes in addition. What cannot be converted with one
setting cannot be with the other.

* `Declaration.ReportsReferences` says what replacing does to a declaration;
* `RecipeStage.Warns` compares a recipe made ready with one that has more warnings, and
  `RecipeStage.Warns.products` what is made of the two;
* `RecipeConversion.OnlyWarns` compares the conversions;
* `resolution_touches_references_only` is the result.
-/

namespace Cookbook

/-! ### Declarations -/

/-- Replacing attributes leaves the declaration alone but for its paths. Against no attributes it stays as it
is, with one warning for each of its paths, as first seen, if no key has the unit that stands between keys; and
without paths it stays as it is against any attributes, with no warning. -/
structure Declaration.ReportsReferences (d : Declaration) : Prop where
  unchanged : (d.resolve ⟨[]⟩).declaration = d
  reported : (∀ path ∈ d.references, path.NulFree) → ∀ source, ∃ paths, FirstSeen d.references paths ∧
    (d.resolve ⟨[]⟩).diagnostics source =
      paths.map fun path => ⟨.unresolvedPath path, source, d.span, some d.ref⟩
  without : d.references = [] → ∀ table, (d.resolve table).declaration = d ∧
    ∀ source, (d.resolve table).diagnostics source = []

theorem Declaration.reportsReferences_of_wellFormed {d : Declaration} (hd : ∀ v ∈ d.values, v.WellFormed) :
    d.ReportsReferences where
  unchanged := by rw [Declaration.resolve_of_none hd fun _ _ => AttributeTable.get?_empty _]
  reported hfree source := by
    refine ⟨d.references.eraseDups, firstSeen_eraseDups _, ?_⟩
    rw [Declaration.resolve_of_none hd fun _ _ => AttributeTable.get?_empty _]
    exact ResolvedDeclaration.diagnostics_of_references hd hfree source
  without hnone table := by
    have hresolved : d.resolve table = ⟨d, [], []⟩ := by
      rw [Declaration.resolve_of_none hd fun path hpath => absurd (hnone ▸ hpath) List.not_mem_nil, hnone]
    rw [hresolved]
    exact ⟨rfl, fun _ => rfl⟩

/-! ### Settings -/

def Settings.resolving (s : Settings) (resolve : Bool) : Settings := { s with resolveAttributes := resolve }

def Services.resolving (s : Services) (resolve : Bool) : Services :=
  { s with settings := { s.settings with settings := s.settings.settings.resolving resolve } }

/-- The warnings about the paths of a declaration when no attribute is assigned. -/
def Declaration.pathWarnings (d : Declaration) (source : Text) : List Diagnostic :=
  (d.resolve ⟨[]⟩).diagnostics source

theorem Declaration.severity_pathWarnings (d : Declaration) (source : Text) :
    ∀ w ∈ d.pathWarnings source, w.severity = .warning := by
  intro w hw
  rcases List.mem_append.1 hw with hw | hw
  · obtain ⟨path, -, rfl⟩ := List.mem_map.1 hw
    rfl
  · obtain ⟨path, -, rfl⟩ := List.mem_map.1 hw
    rfl

/-! ### Recipes made ready -/

def ReadyDeclaration.withWarnings (r : ReadyDeclaration) (warnings : List Diagnostic) : ReadyDeclaration :=
  { r with diagnostics := warnings ++ r.diagnostics }

/-- The second stage is the first with warnings added to its declarations, under settings that map them in the
same way. -/
structure RecipeStage.Warns (s s' : RecipeStage) (warnings : Nat → List Diagnostic) : Prop where
  source : s'.source = s.source
  ctx : s'.ctx = s.ctx
  namingActions : s'.namingActions = s.namingActions
  extraction : s'.extraction = s.extraction
  graph : s'.graph = s.graph
  ready : s'.ready = s.ready.mapIdx fun i r => r.withWarnings (warnings i)
  severity : ∀ i, ∀ d ∈ warnings i, d.severity = .warning

/-- The second task is the first with some messages among its warnings. -/
def ConvertedTask.OnlyWarns (messages : List Text) (t t' : ConvertedTask) : Prop :=
  ∃ before after, t.rawWarnings = before ++ after ∧
    t' = { t with rawWarnings := before ++ messages ++ after }

/-- The second tasks and handlers are the first, with some warnings for each task in addition. -/
structure RecipeProducts.OnlyWarns (warnings : Nat → List Diagnostic) (made made' : RecipeProducts) : Prop where
  handlers : made'.handlers = made.handlers
  tasks : ∃ pairs : List (Reported ConvertedTask × Reported ConvertedTask),
    made.tasks = pairs.map (·.1) ∧ made'.tasks = pairs.map (·.2) ∧
      ∀ (i : Nat) pair, pairs[i]? = some pair →
        pair.1.result.OnlyWarns ((warnings i).map (·.message)) pair.2.result ∧
          pair.2.diagnostics = warnings i ++ pair.1.diagnostics

namespace RecipeStage.Warns

variable {s s' : RecipeStage} {warnings : Nat → List Diagnostic} (h : s.Warns s' warnings)

include h

/-- An action on a target is the same whatever warnings its declaration has. -/
theorem run (ctx : MappingContext) (targetRef action : Text) (targetIndex : Option Nat) (span : Span) :
    TargetRun.run ctx s'.ready targetRef action targetIndex span =
      TargetRun.run ctx s.ready targetRef action targetIndex span := by
  unfold TargetRun.run
  cases targetIndex with
  | none => rfl
  | some i =>
    rw [h.ready, Option.bind_some, Option.bind_some, List.getElem?_mapIdx]
    cases s.ready[i]? <;> rfl

theorem postAction : s'.postAction = s.postAction := by
  funext span post
  unfold RecipeStage.postAction
  rw [h.run, h.ctx]

theorem handler : s'.handler = s.handler := by
  funext spec
  unfold RecipeStage.handler
  rw [h.run, h.ctx]

/-- More warnings of its own come between the other messages of a task. -/
theorem rawWarnings (r : ReadyDeclaration) (i : Nat) (own : List Diagnostic) :
    ∃ before after, s.rawWarnings r own = before ++ after ∧
      s'.rawWarnings (r.withWarnings (warnings i)) (warnings i ++ own) =
        before ++ (warnings i).map (·.message) ++ after := by
  have hkept : (warnings i).filter (·.severity == .warning) = warnings i :=
    List.filter_eq_self.2 fun d hd => by simp [h.severity i d hd]
  unfold RecipeStage.rawWarnings
  rw [h.extraction, h.graph]
  simp only [List.filter_append, List.map_append, hkept]
  refine ⟨_, _, rfl, ?_⟩
  simp only [List.append_assoc]
  rfl

theorem searchWarnings (r : ReadyDeclaration) (more : List Diagnostic) :
    s'.searchWarnings (r.withWarnings more) = s.searchWarnings r := by
  unfold RecipeStage.searchWarnings
  rw [h.source]
  rfl

theorem taskOf (r : ReadyDeclaration) (i : Nat) (mapped : MappedResource)
    (posts : List (Reported PostActionTask)) :
    (s.taskOf r i mapped posts).result.OnlyWarns ((warnings i).map (·.message))
        (s'.taskOf (r.withWarnings (warnings i)) i mapped posts).result ∧
      (s'.taskOf (r.withWarnings (warnings i)) i mapped posts).diagnostics =
        warnings i ++ (s.taskOf r i mapped posts).diagnostics := by
  let own := r.diagnostics ++ mapped.diagnostics ++ s.searchWarnings r
  obtain ⟨before, after, hraw, hraw'⟩ := h.rawWarnings r i own
  have hown : (r.withWarnings (warnings i)).diagnostics ++ mapped.diagnostics ++ s.searchWarnings r =
      warnings i ++ own := by
    show warnings i ++ r.diagnostics ++ mapped.diagnostics ++ s.searchWarnings r = _
    simp only [own, List.append_assoc]
  have hdeclaration : (r.withWarnings (warnings i)).declaration = r.declaration := rfl
  unfold RecipeStage.taskOf
  simp only [h.graph, h.namingActions, h.searchWarnings, hdeclaration, h.source]
  rw [hown, hraw']
  exact ⟨⟨before, after, hraw, rfl⟩, List.append_assoc _ _ _⟩

/-- The task of a declaration with more warnings has their messages, and is the same otherwise. -/
theorem task (r : ReadyDeclaration) (i : Nat) :
    SameOutcome
      (fun t t' => t.result.OnlyWarns ((warnings i).map (·.message)) t'.result ∧
        t'.diagnostics = warnings i ++ t.diagnostics)
      (s.task r i) (s'.task (r.withWarnings (warnings i)) i) := by
  have hdeclaration : (r.withWarnings (warnings i)).declaration = r.declaration := rfl
  unfold RecipeStage.task
  simp only [h.graph, h.ctx, h.postAction, hdeclaration]
  exact .bind_left fun mapped _ => .bind_left fun posts _ => .ok (h.taskOf r i mapped posts)

theorem zipIdx_ready : s'.ready.zipIdx =
    s.ready.zipIdx.map fun pair => (pair.1.withWarnings (warnings pair.2), pair.2) := by
  rw [h.ready]
  refine List.ext_getElem? fun i => ?_
  simp only [List.getElem?_map, List.getElem?_zipIdx, List.getElem?_mapIdx, Nat.zero_add]
  cases s.ready[i]? <;> rfl

/-- What is made of a recipe with more warnings is the same, with the warnings in addition. -/
theorem products : SameOutcome (RecipeProducts.OnlyWarns warnings) s.products s'.products := by
  have htasks := SameOutcome.mapM s.ready.zipIdx fun pair _ => h.task pair.1 pair.2
  unfold RecipeStage.products
  rw [h.zipIdx_ready, List.mapM_map, h.graph, h.handler]
  refine htasks.bind fun tasks tasks' _ _ hpairs => .bind_left fun handlers _ => .ok ⟨rfl, ?_⟩
  obtain ⟨pairs, htasks, htasks', hall⟩ := hpairs
  refine ⟨pairs, htasks, htasks', fun i pair hpair => ?_⟩
  obtain ⟨⟨r, j⟩, hr, hwarns⟩ := exists_getElem?_of_forall₂ hall.flip hpair
  -- the pair at a place is that of the declaration at the place
  obtain rfl : j = i := by
    rw [List.getElem?_zipIdx, Nat.zero_add] at hr
    obtain ⟨_, -, heq⟩ := Option.map_eq_some_iff.1 hr
    exact (Prod.mk.inj heq).2.symm
  exact hwarns

/-- All diagnostics are there in their order, and the warnings come in addition. -/
theorem diagnostics {made made' : RecipeProducts} (hmade : made.OnlyWarns warnings made') :
    (s.diagnostics made).Sublist (s'.diagnostics made') ∧
    (s'.diagnostics made').Perm (s.diagnostics made ++ (List.range made.tasks.length).flatMap warnings) := by
  obtain ⟨pairs, htasks, htasks', hwarns⟩ := hmade.tasks
  have hfirst : made.tasks.flatMap (·.diagnostics) =
      pairs.zipIdx.flatMap fun x => x.1.1.diagnostics := by
    rw [htasks, List.flatMap_map, ← List.zipIdx_map_fst 0 pairs, List.flatMap_map, List.zipIdx_map_fst]
  have hsecond : made'.tasks.flatMap (·.diagnostics) =
      pairs.zipIdx.flatMap fun x => warnings x.2 ++ x.1.1.diagnostics := by
    have hlists : pairs.map (·.2.diagnostics) =
        pairs.zipIdx.map fun x => warnings x.2 ++ x.1.1.diagnostics := by
      refine List.ext_getElem? fun i => ?_
      rw [List.getElem?_map, List.getElem?_map, List.getElem?_zipIdx, Nat.zero_add]
      cases hpair : pairs[i]? with
      | none => rfl
      | some pair => exact congrArg some (hwarns i pair hpair).2
    rw [htasks', List.flatMap_map, List.flatMap_def, List.flatMap_def, hlists]
  have hwarnings : (List.range made.tasks.length).flatMap warnings =
      pairs.zipIdx.flatMap fun x => warnings x.2 := by
    rw [htasks, List.length_map, List.range_eq_range', ← List.zipIdx_map_snd, List.flatMap_map]
  unfold RecipeStage.diagnostics
  rw [h.extraction, h.graph, hmade.handlers, hfirst, hsecond, hwarnings]
  constructor
  · refine List.Sublist.append_left (List.Sublist.append_right ?_ _) _
    exact List.Sublist.flatMap_right _ fun x _ => List.sublist_append_right _ _
  · have hsplit := (List.flatMap_append_perm pairs.zipIdx (fun x => warnings x.2)
      fun x => x.1.1.diagnostics).symm.trans List.perm_append_comm
    rw [List.append_assoc _ _ (pairs.zipIdx.flatMap fun x => warnings x.2)]
    refine List.Perm.append_left _ ((hsplit.append_right _).trans ?_)
    rw [List.append_assoc, List.append_assoc]
    exact List.Perm.append_left _ List.perm_append_comm

end RecipeStage.Warns

/-! ### Conversions -/

/-- The second conversion is the first with warnings in addition, some for each declaration: their messages are
with the task of the declaration, and they are among the diagnostics. -/
structure RecipeConversion.OnlyWarns (warnings : List (List Diagnostic)) (c c' : RecipeConversion) : Prop where
  source : c'.source = c.source
  length : c.tasks.length = warnings.length ∧ c'.tasks.length = warnings.length
  tasks : ∀ (i : Nat) (t t' : ConvertedTask), c.tasks[i]? = some t → c'.tasks[i]? = some t' →
    t.OnlyWarns ((warnings.getD i []).map (·.message)) t'
  handlers : c'.handlers = c.handlers
  diagnostics : c.diagnostics.Sublist c'.diagnostics
  added : c'.diagnostics.Perm (c.diagnostics ++ warnings.flatten)

/-- What is converted from a recipe with more warnings is the same, with the warnings in addition. -/
theorem RecipeStage.Warns.conversion {s s' : RecipeStage} {warnings : List (List Diagnostic)}
    (h : s.Warns s' fun i => warnings.getD i []) {made made' : RecipeProducts}
    (hmade : made.OnlyWarns (fun i => warnings.getD i []) made')
    (hlength : made.tasks.length = warnings.length) :
    (s.conversion made).OnlyWarns warnings (s'.conversion made') := by
  have hdiagnostics := h.diagnostics hmade
  obtain ⟨pairs, htasks, htasks', hwarns⟩ := hmade.tasks
  have hpairs : pairs.length = warnings.length := by rw [← hlength, htasks, List.length_map]
  refine ⟨h.source, ⟨?_, ?_⟩, fun i t t' ht ht' => ?_, ?_, Diagnostic.sort_sublist hdiagnostics.1, ?_⟩
  · show (made.tasks.map _).length = _
    rw [List.length_map, hlength]
  · show (made'.tasks.map _).length = _
    rw [List.length_map, htasks', List.length_map, hpairs]
  · replace ht : (made.tasks.map (·.result))[i]? = some t := ht
    replace ht' : (made'.tasks.map (·.result))[i]? = some t' := ht'
    rw [htasks, List.map_map, List.getElem?_map] at ht
    rw [htasks', List.map_map, List.getElem?_map] at ht'
    obtain ⟨pair, hpair, rfl⟩ := Option.map_eq_some_iff.1 ht
    rw [hpair] at ht'
    obtain rfl := Option.some.inj ht'
    exact (hwarns i pair hpair).1
  · show made'.handlers.map _ = made.handlers.map _
    rw [hmade.handlers]
  · have hadded := hdiagnostics.2
    rw [hlength, flatMap_range_getD] at hadded
    exact (Diagnostic.sort_perm _).trans (hadded.trans ((Diagnostic.sort_perm _).symm.append_right _))

/-- The diagnostics of shared files come to both. -/
theorem RecipeConversion.OnlyWarns.withShared {warnings : List (List Diagnostic)} {c c' : RecipeConversion}
    (h : c.OnlyWarns warnings c') (shared : List Diagnostic) :
    (c.withShared shared).OnlyWarns warnings (c'.withShared shared) := by
  unfold RecipeConversion.withShared
  split
  · exact h
  · refine ⟨h.source, h.length, h.tasks, h.handlers, ?_, ?_⟩
    · exact Diagnostic.sort_sublist (h.diagnostics.append_left shared)
    · refine (Diagnostic.sort_perm _).trans ((h.added.append_left shared).trans ?_)
      rw [← List.append_assoc]
      exact (Diagnostic.sort_perm _).symm.append_right _

section Conversions

variable {env : RecipeEnvironment}

def RecipeEnvironment.resolving (env : RecipeEnvironment) (resolve : Bool) : RecipeEnvironment :=
  { env with settings := env.settings.resolving resolve }

/-- Against no attributes, a well-formed declaration is made ready with the warnings about its paths. -/
theorem RecipeEnvironment.ofDeclaration_resolving (hempty : env.attributes = ⟨[]⟩) (source : Text)
    (constants : Bindings Value) {d : Declaration} (hd : ∀ v ∈ d.values, v.WellFormed) :
    ReadyDeclaration.ofDeclaration (env.resolving true) source constants d =
      (ReadyDeclaration.ofDeclaration (env.resolving false) source constants d).withWarnings
        (d.pathWarnings source) := by
  have hkept := (Declaration.reportsReferences_of_wellFormed hd).unchanged
  unfold ReadyDeclaration.ofDeclaration Declaration.pathWarnings
  simp only [resolving, Settings.resolving, hempty, if_true, hkept]
  rfl

/-- The warnings about the paths of each declaration of a recipe. -/
def Extraction.pathWarnings (e : Extraction) (source : Text) : List (List Diagnostic) :=
  e.declarations.map (·.pathWarnings source)

/-- Against no attributes, a recipe is made ready with the warnings about the paths of its declarations. -/
theorem RecipeStage.warns_resolving (hempty : env.attributes = ⟨[]⟩) (source text : Text) :
    (RecipeStage.ofText (env.resolving false) source text).Warns
      (RecipeStage.ofText (env.resolving true) source text)
      fun i => ((extractDeclarations source text env.knownTypes .empty).pathWarnings source).getD i [] := by
  let e := extractDeclarations source text env.knownTypes .empty
  have hvalues : ∀ d ∈ e.declarations, ∀ v ∈ d.values, v.WellFormed :=
    extractDeclarations_values Value.wellFormed_readingKeeps source text env.knownTypes
  have hready : (RecipeStage.ofText (env.resolving true) source text).ready =
      (RecipeStage.ofText (env.resolving false) source text).ready.mapIdx fun i r =>
        r.withWarnings ((e.pathWarnings source).getD i []) := by
    show e.declarations.map (ReadyDeclaration.ofDeclaration (env.resolving true) source e.constants) =
      (e.declarations.map (ReadyDeclaration.ofDeclaration (env.resolving false) source e.constants)).mapIdx _
    refine List.ext_getElem? fun i => ?_
    rw [List.getElem?_mapIdx, List.getElem?_map, List.getElem?_map]
    cases hd : e.declarations[i]? with
    | none => rfl
    | some d =>
      have hwarnings : (e.pathWarnings source).getD i [] = d.pathWarnings source := by
        unfold Extraction.pathWarnings
        rw [List.getD_eq_getElem?_getD, List.getElem?_map, hd]
        rfl
      rw [Option.map_some, Option.map_some, Option.map_some, hwarnings,
        RecipeEnvironment.ofDeclaration_resolving hempty source e.constants (hvalues d (List.mem_of_getElem? hd))]
  refine ⟨rfl, rfl, rfl, rfl, ?_, hready, ?_⟩
  -- warnings are no part of what the graph sees
  · have hnodes : (RecipeStage.ofText (env.resolving true) source text).ready.map (·.node) =
        (RecipeStage.ofText (env.resolving false) source text).ready.map (·.node) := by
      rw [hready]
      refine List.ext_getElem? fun i => ?_
      rw [List.getElem?_map, List.getElem?_map, List.getElem?_mapIdx]
      cases (RecipeStage.ofText (env.resolving false) source text).ready[i]? <;> rfl
    exact congrArg (NotificationGraph.ofNodes source) hnodes
  · intro i w hw
    rw [List.getD_eq_getElem?_getD] at hw
    cases hi : ((extractDeclarations source text env.knownTypes .empty).pathWarnings source)[i]? with
    | none =>
      rw [hi] at hw
      exact absurd hw List.not_mem_nil
    | some ws =>
      rw [hi] at hw
      obtain ⟨d, -, rfl⟩ := List.mem_map.1 (List.mem_of_getElem? hi)
      exact d.severity_pathWarnings source w hw

theorem RecipeStage.length_tasks_of_products {s : RecipeStage} {made : RecipeProducts}
    (hmade : s.products = .ok made) : made.tasks.length = s.ready.length := by
  rw [← (RecipeStage.products_eq_ok_iff.1 hmade).1.length_eq, List.length_zipIdx]

/-- Against no attributes, a recipe is converted the same with attribute paths replaced, with the warnings about
its paths in addition. -/
theorem RecipeRun.onlyWarns_resolving (hempty : env.attributes = ⟨[]⟩) (file : SourceFile) :
    SameOutcome
      (fun run run' : RecipeRun => run.conversion.OnlyWarns
        ((extractDeclarations file.source file.text env.knownTypes .empty).pathWarnings file.source)
        run'.conversion)
      (RecipeRun.ofText (env.resolving false) file) (RecipeRun.ofText (env.resolving true) file) := by
  have hwarns := RecipeStage.warns_resolving hempty file.source file.text
  refine hwarns.products.bind fun made made' hmade _ honly => .ok ?_
  refine hwarns.conversion honly ?_
  rw [RecipeStage.length_tasks_of_products hmade, RecipeStage.ready_ofText]
  simp [Extraction.pathWarnings]
  rfl

end Conversions

/-! ### Whole recipes and cookbooks -/

theorem PreparedCookbook.attributes_of_nil {files : CookbookFiles} (h : files.attributes = []) :
    (PreparedCookbook.ofFiles files).attributes = ⟨[]⟩ := by
  unfold PreparedCookbook.ofFiles
  rw [h]
  rfl

/-- Replacing attributes touches only the paths in a declaration: without attributes, it gives one warning for each
path that is looked up, and where there is no path it does nothing. So without attribute files a recipe is
converted the same whether attribute paths are replaced or not, with these warnings in addition, or fails in the
same way; and so does a cookbook with each of its recipes. -/
theorem resolution_touches_references_only (services : Services) (files : CookbookFiles) (recipe : SourceFile) :
    (∀ knownTypes, ∀ d ∈ (extractDeclarations recipe.source recipe.text knownTypes .empty).declarations,
      d.ReportsReferences) ∧
    (files.attributes = [] →
      let env := services.environment (PreparedCookbook.ofFiles files)
      let warnings (r : SourceFile) : List (List Diagnostic) :=
        (extractDeclarations r.source r.text env.knownTypes .empty).pathWarnings r.source
      SameOutcome
          (fun c c' : Logged RecipeConversion => c.result.OnlyWarns (warnings recipe) c'.result)
          (convertRecipe (services.resolving false) files recipe)
          (convertRecipe (services.resolving true) files recipe) ∧
        ∀ recipes : List SourceFile,
          SameOutcome
            (fun c c' : Logged CookbookConversion =>
              List.Forall₂ (fun r (pair : RecipeConversion × RecipeConversion) =>
                  pair.1.OnlyWarns (warnings r) pair.2) recipes
                (c.result.recipes.zip c'.result.recipes))
            (convertCookbook (services.resolving false) files recipes)
            (convertCookbook (services.resolving true) files recipes)) := by
  refine ⟨fun knownTypes d hd => Declaration.reportsReferences_of_wellFormed
    (extractDeclarations_values Value.wellFormed_readingKeeps recipe.source recipe.text knownTypes d hd), ?_⟩
  intro hfiles env warnings
  have hempty : env.attributes = ⟨[]⟩ := PreparedCookbook.attributes_of_nil hfiles
  have hrun : ∀ r : SourceFile, SameOutcome
      (fun run run' : RecipeRun => run.conversion.OnlyWarns (warnings r) run'.conversion)
      (RecipeRun.ofText (env.resolving false) r) (RecipeRun.ofText (env.resolving true) r) :=
    RecipeRun.onlyWarns_resolving hempty
  refine ⟨(hrun recipe).bind fun run run' _ _ honly => .ok (honly.withShared _), fun recipes => ?_⟩
  refine (SameOutcome.mapM recipes fun r _ => hrun r).bind fun runs runs' _ _ hruns => .ok ?_
  obtain ⟨pairs, rfl, rfl, hpairs⟩ := hruns
  show List.Forall₂ _ recipes (((pairs.map (·.1)).map (·.conversion)).zip
    ((pairs.map (·.2)).map (·.conversion)))
  rw [List.map_map, List.map_map, List.zip_map', List.forall₂_map_right_iff]
  exact hpairs

/-- A name that comes from an assignment, and a list, with three paths of which two are the same. -/
theorem repeated_path_reported_once :
    let text : Text := "x = \x22#\x7bnode['a']\x7d b\x22\npackage \x22p #\x7bx\x7d\x22 do\n" ++
      "  version [node['b'], node['a']]\nend\n"
    let services : Services := ⟨⟨.standard, []⟩, .empty⟩
    let files : CookbookFiles := ⟨none, [], []⟩
    let declarations := (extractDeclarations "a.rb" text [] .empty).declarations
    let keys : List KeyPath := [["a"], ["b"], ["a"]]
    declarations.map (·.references) = [keys] ∧
      (∀ d ∈ declarations, (d.resolve ⟨[]⟩).declaration = d ∧ ∃ paths, FirstSeen d.references paths ∧
        d.pathWarnings "a.rb" = paths.map fun path => ⟨.unresolvedPath path, "a.rb", d.span, some d.ref⟩) ∧
      ∃ c c', convertRecipe (services.resolving false) files ⟨"a.rb", text⟩ = .ok c ∧
        convertRecipe (services.resolving true) files ⟨"a.rb", text⟩ = .ok c' ∧
        c.result.OnlyWarns (declarations.map (·.pathWarnings "a.rb")) c'.result := by
  intro text services files declarations keys
  have hreferences : declarations.map (·.references) = [keys] := by decide +kernel
  have hfree : ∀ path ∈ keys, path.NulFree := by decide
  have hconverts : (convertRecipe (services.resolving false) files ⟨"a.rb", text⟩).toOption.isSome = true := by
    decide +kernel
  obtain ⟨hdeclared, hconverted⟩ := resolution_touches_references_only services files ⟨"a.rb", text⟩
  refine ⟨hreferences, fun d hd => ?_, ?_⟩
  · have hd' := hdeclared [] d hd
    have hmem : d.references ∈ declarations.map (·.references) := List.mem_map_of_mem hd
    rw [hreferences, List.mem_singleton] at hmem
    exact ⟨hd'.unchanged, hd'.reported (hmem ▸ hfree) "a.rb"⟩
  · have hsame := (hconverted rfl).1
    generalize convertRecipe (services.resolving false) files ⟨"a.rb", text⟩ = x at hsame hconverts ⊢
    generalize convertRecipe (services.resolving true) files ⟨"a.rb", text⟩ = y at hsame ⊢
    cases hsame with
    | error e => exact absurd hconverts Bool.false_ne_true
    | ok honly => exact ⟨_, _, rfl, rfl, honly⟩

end Cookbook
