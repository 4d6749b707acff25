import Cookbook.Conversion.Basic
import Cookbook.Proofs.Diagnostic.Order
import Cookbook.Proofs.Outcome

/-!
A recipe converted by itself and as the only recipe of a cookbook. By itself it takes the diagnostics of the
shared files among its own, where they are put in order a second time and counted again; in a cookbook they stay
apart. The tasks and handlers are the same, and no diagnostic is lost or counted twice. What cannot be converted
in the one way cannot be in the other.

* `RecipeConversion.SameTasks` is about conversions of which only the diagnostics differ;
* `RecipeConversion.Reports` says which diagnostics a conversion lists, and that its counts are of these;
* `RecipeConversion.AgreesWith` compares the recipe with the cookbook;
* `single_recipe_agrees` is the result.
-/

namespace Cookbook

/-! ### Conversions -/

namespace RecipeConversion

/-- The conversions have the same tasks and handlers, and count the same of everything but errors and
warnings. -/
structure SameTasks (c c' : RecipeConversion) : Prop where
  source : c'.source = c.source
  tasks : c'.tasks = c.tasks
  handlers : c'.handlers = c.handlers
  declarationCount : c'.summary.declarations = c.summary.declarations
  taskCount : c'.summary.tasks = c.summary.tasks
  handlerCount : c'.summary.handlers = c.summary.handlers
  complexity : c'.summary.complexity = c.summary.complexity

/-- The conversion lists the diagnostics in order, and its counts of errors and warnings are of these. -/
structure Reports (ds : List Diagnostic) (c : RecipeConversion) : Prop where
  sorted : Diagnostic.StablySorted ds c.diagnostics
  errors : c.summary.errors = Diagnostic.count .error ds
  warnings : c.summary.warnings = Diagnostic.count .warning ds

/-- Every diagnostic is counted once. -/
theorem Reports.total {ds : List Diagnostic} {c : RecipeConversion} (h : c.Reports ds) :
    c.summary.errors + c.summary.warnings = c.diagnostics.length := by
  rw [h.errors, h.warnings, Diagnostic.count_add_count, Diagnostic.stablySorted_iff.1 h.sorted,
    (Diagnostic.sort_perm ds).length_eq]

theorem sameTasks_withShared (c : RecipeConversion) (shared : List Diagnostic) :
    c.SameTasks (c.withShared shared) := by
  unfold withShared
  split <;> exact ⟨rfl, rfl, rfl, rfl, rfl, rfl, rfl⟩

/-- The shared diagnostics come before the conversion's own of the same place. -/
theorem Reports.withShared {ds : List Diagnostic} {c : RecipeConversion} (h : c.Reports ds)
    (shared : List Diagnostic) : (c.withShared shared).Reports (shared ++ ds) := by
  unfold RecipeConversion.withShared
  cases shared with
  | nil => exact h
  | cons d more =>
    have hsorted := Diagnostic.stablySorted_sort (d :: more ++ c.diagnostics)
    have hcount : ∀ s, Diagnostic.count s (Diagnostic.sort (d :: more ++ c.diagnostics)) =
        Diagnostic.count s (d :: more ++ ds) := by
      intro s
      rw [Diagnostic.count_sort, Diagnostic.count_append, Diagnostic.count_append,
        Diagnostic.stablySorted_iff.1 h.sorted, Diagnostic.count_sort]
    exact ⟨h.sorted.append_right_iff.1 hsorted, hcount .error, hcount .warning⟩

end RecipeConversion

theorem RecipeStage.reports_conversion (s : RecipeStage) (made : RecipeProducts) :
    (s.conversion made).Reports (s.diagnostics made) where
  sorted := Diagnostic.stablySorted_sort _
  errors := Diagnostic.count_sort .error _
  warnings := Diagnostic.count_sort .warning _

/-! ### One recipe of a cookbook -/

/-- A recipe converted by itself and a cookbook of this recipe. They have the same tasks and handlers and count
the same of them, also by complexity. By itself the recipe lists the diagnostics of the shared files and then
those of its stages, as one stable sort by file, start and end gives them, whether those of the shared files are
taken as they were made or as the cookbook lists them. Its errors and warnings are as many as those of the whole
cookbook, and together as many as its diagnostics. -/
structure RecipeConversion.AgreesWith (shared own : List Diagnostic) (one : RecipeConversion)
    (all : CookbookConversion) : Prop where
  tasks : ∃ listed, all.recipes = [listed] ∧ listed.SameTasks one
  taskCount : all.summary.tasks = one.summary.tasks
  handlerCount : all.summary.handlers = one.summary.handlers
  sorted : Diagnostic.StablySorted (shared ++ own) one.diagnostics
  resorted : Diagnostic.StablySorted (all.diagnostics ++ own) one.diagnostics
  errors : one.summary.errors = all.summary.errors
  warnings : one.summary.warnings = all.summary.warnings
  total : one.summary.errors + one.summary.warnings = one.diagnostics.length

section

variable (services : Services) (files : CookbookFiles)

def Services.stage (recipe : SourceFile) : RecipeStage :=
  .ofText (services.environment (.ofFiles files)) recipe.source recipe.text

/-- The one conversion with the diagnostics of the shared files, and the cookbook of it alone. -/
theorem agreesWith_ofRecipes {c : RecipeConversion} {own : List Diagnostic} (hown : c.Reports own) :
    let prepared := PreparedCookbook.ofFiles files
    (c.withShared prepared.diagnostics).AgreesWith prepared.diagnostics own
      ⟨[c], prepared.attributes.effective, Diagnostic.sort prepared.diagnostics,
        .ofRecipes [c] prepared.resources.files (Diagnostic.sort prepared.diagnostics)⟩ := by
  intro prepared
  have hsame : c.SameTasks (c.withShared prepared.diagnostics) := RecipeConversion.sameTasks_withShared c _
  have hone : (c.withShared prepared.diagnostics).Reports (prepared.diagnostics ++ own) :=
    hown.withShared prepared.diagnostics
  have hall : Diagnostic.StablySorted prepared.diagnostics (Diagnostic.sort prepared.diagnostics) :=
    Diagnostic.stablySorted_sort _
  have hcount : ∀ s, Diagnostic.count s (prepared.diagnostics ++ own) =
      Diagnostic.count s (Diagnostic.sort prepared.diagnostics) + (Diagnostic.count s own + 0) := by
    intro s
    rw [Diagnostic.count_append, Diagnostic.count_sort, Nat.add_zero]
  refine ⟨⟨c, rfl, hsame⟩, ?_, ?_, hone.sorted, hall.append_left_iff.2 hone.sorted, ?_, ?_, hone.total⟩
  · rw [hsame.taskCount]
    exact Nat.add_zero _
  · rw [hsame.handlerCount]
    exact Nat.add_zero _
  · rw [hone.errors, hcount, ← hown.errors]
    rfl
  · rw [hone.warnings, hcount, ← hown.warnings]
    rfl

/-- A recipe converted by itself agrees with the cookbook of this recipe, whose own diagnostics are those of its
stages; and when one of the two fails, the other fails with the same error. -/
theorem single_recipe_agrees (recipe : SourceFile) :
    let stage := services.stage files recipe
    SameOutcome
      (fun (one : Logged RecipeConversion) (all : Logged CookbookConversion) =>
        ∃ made, stage.products = .ok made ∧
          one.result.AgreesWith (PreparedCookbook.ofFiles files).diagnostics (stage.diagnostics made)
            all.result)
      (convertRecipe services files recipe) (convertCookbook services files [recipe]) := by
  intro stage
  have hrun : RecipeRun.ofText (services.environment (.ofFiles files)) recipe =
      stage.products.map fun made => ⟨stage.conversion made, stage.phases made recipe.text.length⟩ := rfl
  simp only [convertRecipe, convertCookbook, List.mapM_cons, List.mapM_nil, hrun]
  cases hmade : stage.products with
  | error e => exact .error e
  | ok made => exact .ok ⟨made, rfl, agreesWith_ofRecipes files (stage.reports_conversion made)⟩

end

end Cookbook
