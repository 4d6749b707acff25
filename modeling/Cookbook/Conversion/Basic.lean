import Cookbook.Conversion.Recipe

/-!
Conversions of a recipe by itself and of a cookbook as a whole. Both read the shared files once; a
single recipe takes their diagnostics among its own, a cookbook reports them apart.
-/

namespace Cookbook

/-- The settings and the table a conversion starts from. -/
structure Services where
  settings : LoadedSettings
  table : ResourceTable

/-- The resource table under some layers, the first lowest. -/
def ResourceTable.ofLayers (layers : List ResourceTable) : ResourceTable :=
  layers.foldl Fields.overlay ResourceTable.builtin

/-- What recipes are converted against, given the files they share. -/
def Services.environment (s : Services) (p : PreparedCookbook) : RecipeEnvironment :=
  ⟨s.settings.settings, s.table, p.attributes, p.resources.definitions⟩

/-- A result with the log of how it was made. -/
structure Logged (α : Type) where
  result : α
  log : List LogLine

namespace RecipeConversion

/-- The conversion with the diagnostics of the shared files among its own. -/
def withShared (c : RecipeConversion) (shared : List Diagnostic) : RecipeConversion :=
  if shared.isEmpty then c
  else
    let diagnostics := Diagnostic.sort (shared ++ c.diagnostics)
    { c with
      diagnostics
      summary :=
        { c.summary with
          errors := Diagnostic.count .error diagnostics
          warnings := Diagnostic.count .warning diagnostics } }

end RecipeConversion

/-- One recipe converted. -/
def convertRecipe (services : Services) (files : CookbookFiles) (recipe : SourceFile) :
    Except MappingError (Logged RecipeConversion) := do
  let prepared := PreparedCookbook.ofFiles files
  let run ← RecipeRun.ofText (services.environment prepared) recipe
  return ⟨run.conversion.withShared prepared.diagnostics,
    services.settings.log ++ prepared.log ++ run.log⟩

/-! ### Cookbooks -/

structure CookbookSummary where
  recipes : Nat
  tasks : Nat
  handlers : Nat
  customResources : Nat
  errors : Nat
  warnings : Nat
deriving DecidableEq

/-- A converted cookbook; the diagnostics are those of its shared files. -/
structure CookbookConversion where
  recipes : List RecipeConversion
  attributes : List EffectiveAttribute
  diagnostics : List Diagnostic
  summary : CookbookSummary

def CookbookSummary.ofRecipes (recipes : List RecipeConversion) (customResources : Nat)
    (shared : List Diagnostic) : CookbookSummary :=
  let sum (count : RecipeSummary → Nat) : Nat :=
    (recipes.map fun r => count r.summary).foldr (· + ·) 0
  { recipes := recipes.length
    tasks := sum (·.tasks)
    handlers := sum (·.handlers)
    customResources
    errors := Diagnostic.count .error shared + sum (·.errors)
    warnings := Diagnostic.count .warning shared + sum (·.warnings) }

/-- All recipes of a cookbook converted, in order, against the files they share. -/
def convertCookbook (services : Services) (files : CookbookFiles) (recipes : List SourceFile) :
    Except MappingError (Logged CookbookConversion) := do
  let prepared := PreparedCookbook.ofFiles files
  let runs ← recipes.mapM (RecipeRun.ofText (services.environment prepared))
  let conversions := runs.map (·.conversion)
  let shared := Diagnostic.sort prepared.diagnostics
  return ⟨
    { recipes := conversions
      attributes := prepared.attributes.effective
      diagnostics := shared
      summary := .ofRecipes conversions prepared.resources.files shared },
    services.settings.log ++ prepared.log ++ runs.flatMap (·.log)⟩

end Cookbook
