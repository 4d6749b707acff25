import Cookbook.Attribute.Table
import Cookbook.Declaration.Basic
import Cookbook.Diagnostic.Basic

/-!
Attribute values put into a declaration: into its name, properties, command guards and notification
targets. Guards that are code, and the conditions around it, keep their paths.
-/

namespace Cookbook

/-- A declaration with its paths replaced, and the paths that could not be, in order. -/
structure ResolvedDeclaration where
  declaration : Declaration
  unresolved : List KeyPath
  cycles : List KeyPath

namespace Declaration

/-- The guard with the paths of its command replaced, and what was found on the way. -/
def resolveGuard (table : AttributeTable) (g : Guard) : Guard × Resolved :=
  match g.form with
  | .command v =>
    let r := table.resolve v
    ({ g with form := .command r.value }, r)
  | .block body _ => (g, .unchanged body)

/-- The declaration with the values in effect for its paths. -/
def resolve (d : Declaration) (table : AttributeTable) : ResolvedDeclaration :=
  let name := table.resolve d.name
  let properties := d.properties.map fun p => (p, table.resolve p.value)
  let guards := d.guards.map (resolveGuard table)
  let notifications := d.notifications.map fun n => (n, table.resolve n.target)
  let all := name :: properties.map (·.2) ++ guards.map (·.2) ++ notifications.map (·.2)
  { declaration :=
      { d with
        name := name.value
        properties := properties.map fun (p, r) => { p with value := r.value }
        guards := guards.map (·.1)
        notifications := notifications.map fun (n, r) => { n with target := r.value } }
    unresolved := all.flatMap (·.unresolved)
    cycles := all.flatMap (·.cycles) }

end Declaration

namespace ResolvedDeclaration

/-- The distinct paths of a list, at their first places. -/
def distinctPaths (paths : List KeyPath) : List KeyPath :=
  (Bindings.ofList (paths.map fun path => (keyPathId path, path))).entries.map (·.2)

/-- The warnings about paths without a value, and about paths that lead back to themselves. -/
def diagnostics (r : ResolvedDeclaration) (source : Text) : List Diagnostic :=
  let warn (finding : Finding) : Diagnostic :=
    ⟨finding, source, r.declaration.span, some r.declaration.ref⟩
  (distinctPaths r.unresolved).map (fun path => warn (.unresolvedPath path)) ++
    (distinctPaths r.cycles).map fun path => warn (.referenceCycle path)

end ResolvedDeclaration

end Cookbook
