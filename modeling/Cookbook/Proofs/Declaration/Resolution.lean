import Cookbook.Declaration.Resolve
import Cookbook.Proofs.Attribute.Effective
import Cookbook.Proofs.Attribute.References
import Cookbook.Proofs.Declaration.BodySteps
import Cookbook.Proofs.Declaration.Reporting

/-!
What replacing attributes leaves alone. The values of a declaration are as reading makes them: their
interpolations are joined, and their paths have keys. Such values are put together again as they were
when none of their paths has a value, and what is reported are these paths.

* `Declaration.values` are the values in which paths are replaced, `Declaration.references` their paths;
* `extractDeclarations_values` says that what the forms of values keep holds of all values declared;
* `Declaration.resolve_of_none` is a declaration whose paths have no value;
* `ResolvedDeclaration.distinctPaths_eq` says which paths are reported, each once.
-/

namespace Cookbook

open RecipeReader

/-! ### Values of a declaration -/

/-- The command of a guard that is no block of code. -/
def Guard.command? (g : Guard) : Option Value :=
  match g.form with
  | .command v => some v
  | .block _ _ => none

/-- The values of a declaration in which paths are replaced, in order: its name, its properties, the
commands of its guards and the targets of its notifications. -/
def Declaration.values (d : Declaration) : List Value :=
  d.name :: (d.properties.map (·.value) ++ d.guards.filterMap Guard.command? ++
    d.notifications.map (·.target))

/-- The paths that are looked up for a declaration, each time they occur. -/
def Declaration.references (d : Declaration) : List KeyPath := d.values.flatMap Value.references

theorem Declaration.forall_mem_values {P : Value → Prop} {d : Declaration} :
    (∀ v ∈ d.values, P v) ↔ P d.name ∧ (∀ q ∈ d.properties, P q.value) ∧
      (∀ g ∈ d.guards, ∀ v, g.form = .command v → P v) ∧ ∀ n ∈ d.notifications, P n.target := by
  have hguards : (∀ v ∈ d.guards.filterMap Guard.command?, P v) ↔
      ∀ g ∈ d.guards, ∀ v, g.form = .command v → P v := by
    constructor
    · intro h g hg v hv
      exact h v (List.mem_filterMap.2 ⟨g, hg, by rw [Guard.command?, hv]⟩)
    · intro h v hv
      obtain ⟨g, hg, hcommand⟩ := List.mem_filterMap.1 hv
      unfold Guard.command? at hcommand
      split at hcommand
      · rename_i w hform
        obtain rfl := Option.some.inj hcommand
        exact h g hg w hform
      · exact absurd hcommand (by simp)
  unfold Declaration.values
  rw [List.forall_mem_cons, List.forall_mem_append, List.forall_mem_append, hguards, List.forall_mem_map,
    List.forall_mem_map, and_assoc]

section Extracted

variable {V : Value → Prop} (hV : Value.ReadingKeeps V)

include hV

/-- What the forms of values keep holds of the values of a resource, if it holds of the names in force. -/
theorem RecipeReader.declare_values (r : RecipeReader) (type : Text) (c : Command) (name : List Token)
    (a : Surroundings) {x : Extraction} (hx : ∀ name v, x.constants.get? name = some v → V v) :
    ∃ d, (r.declare type c name a x).declarations = x.declarations ++ [d] ∧ ∀ v ∈ d.values, V v := by
  have hread : ∀ run, V ((r.ctx x).normalize run).value := NormalizeContext.normalize_kept hV hx
  have hreads : BodyReadsInto (r.ctx x) ((c.block.map (·.body)).getD [])
      (.start ((r.ctx x).normalize name).diagnostics) (fun _ => True) V (fun _ => True) := .ofForms hV hread
  have hadds := readBodyList_adds hreads
  refine ⟨_, rfl, Declaration.forall_mem_values.2 ⟨hread name, ?_, ?_, ?_⟩⟩
  · exact fun q hq => (hadds.properties.forall_mem (fun q hq => absurd hq List.not_mem_nil) q hq).2
  · exact fun g hg => (hadds.guards.forall_mem (fun g hg => absurd hg List.not_mem_nil) g hg).2
  · exact fun n hn => (hadds.notifications.forall_mem (fun n hn => absurd hn List.not_mem_nil) n hn).2

/-- What the forms of values keep holds of the names in force after an assignment. -/
theorem RecipeReader.assign_values (r : RecipeReader) (c : Command) (name : Text) {x : Extraction}
    (hx : ∀ name v, x.constants.get? name = some v → V v) :
    ∀ other v, (r.assign c name x).constants.get? other = some v → V v := by
  intro other v hv
  have hread : V ((r.ctx x).normalize (c.head.drop 2)).value :=
    NormalizeContext.normalize_kept hV hx (c.head.drop 2)
  unfold RecipeReader.assign at hv
  dsimp only at hv
  split_ifs at hv
  · exact hx other v hv
  · rw [Bindings.get?_erase] at hv
    exact hx other v (Option.ite_none_left_eq_some.1 hv).2
  · rw [Bindings.get?_erase] at hv
    exact hx other v (Option.ite_none_left_eq_some.1 hv).2
  · rw [Bindings.get?_set] at hv
    split at hv
    · exact Option.some.inj hv ▸ hread
    · exact hx other v hv

/-- What the forms of values keep holds of all values that a recipe declares. -/
theorem extractDeclarations_values (source text : Text) (knownTypes : List Text) :
    ∀ d ∈ (extractDeclarations source text knownTypes .empty).declarations, ∀ v ∈ d.values, V v := by
  let r : RecipeReader := ⟨source, .ofText text, knownTypes⟩
  let e : Extraction := ⟨.empty, [], r.program.problems.map (.ofProblem source r.program.lines)⟩
  have hsteps : StepsKeep r r.program.statements ⟨[], false⟩ e fun x =>
      (∀ name v, x.constants.get? name = some v → V v) ∧ ∀ d ∈ x.declarations, ∀ v ∈ d.values, V v := by
    refine ⟨fun _ _ hx => hx, ?_, ?_⟩
    · intro c type name rest a x _ _ _ hx
      obtain ⟨d, hdeclarations, hd⟩ := r.declare_values hV type c name (r.modified c.modifier a) hx.1
      refine ⟨hx.1, fun d' hd' => ?_⟩
      rw [hdeclarations] at hd'
      rcases List.mem_append.1 hd' with hd' | hd'
      · exact hx.2 d' hd'
      · exact List.mem_singleton.1 hd' ▸ hd
    · intro c name rest a x _ _ hx
      refine ⟨r.assign_values hV c name hx.1, ?_⟩
      rw [r.declarations_assign]
      exact hx.2
  exact (hsteps.extractList ⟨fun name v hv => absurd hv (by simp [e, Bindings.get?, Bindings.empty]),
    fun d hd => absurd hd List.not_mem_nil⟩).2

end Extracted

/-! ### Values as reading makes them -/

/-- All interpolations in the value are joined, and all paths in it have a key. -/
structure Value.WellFormed (v : Value) : Prop where
  joined : v.Joined
  keyed : ∀ m ∈ v.mentions, m.2 ≠ []

theorem Value.wellFormed_readingKeeps : ReadingKeeps WellFormed where
  literal _ := ⟨trivial, fun m hm => absurd hm List.not_mem_nil⟩
  symbol _ := ⟨trivial, fun m hm => absurd hm List.not_mem_nil⟩
  path scope keys hkeys := ⟨trivial, fun m hm => List.mem_singleton.1 hm ▸ hkeys⟩
  interpolate parts h := by
    refine ⟨joined_interpolate fun v hv => (h v hv).joined, fun m hm => ?_⟩
    rw [mentions_interpolate] at hm
    obtain ⟨v, hv, hm⟩ := List.mem_flatMap.1 hm
    exact (h v hv).keyed m hm
  list items h := by
    refine ⟨(allJoined_iff items).2 fun v hv => (h v hv).joined, fun m hm => ?_⟩
    rw [mentions_list] at hm
    obtain ⟨v, hv, hm⟩ := List.mem_flatMap.1 hm
    exact (h v hv).keyed m hm
  map entries h := by
    refine ⟨(entriesJoined_iff entries).2 fun e he => (h e he).joined, fun m hm => ?_⟩
    rw [mentions_map] at hm
    obtain ⟨e, he, hm⟩ := List.mem_flatMap.1 hm
    exact (h e he).keyed m hm
  verbatim _ := ⟨trivial, fun m hm => absurd hm List.not_mem_nil⟩

theorem Declaration.exists_of_mem_references {d : Declaration} {path : KeyPath} (h : path ∈ d.references) :
    ∃ v ∈ d.values, ∃ scope, scope ≠ .newResource ∧ (scope, path) ∈ v.mentions := by
  obtain ⟨v, hv, hpath⟩ := List.mem_flatMap.1 h
  exact ⟨v, hv, Value.mem_references.1 hpath⟩

/-- The paths that are looked up for a well-formed declaration have keys. -/
theorem Declaration.ne_nil_of_mem_references {d : Declaration} (hd : ∀ v ∈ d.values, v.WellFormed)
    {path : KeyPath} (h : path ∈ d.references) : path ≠ [] := by
  obtain ⟨v, hv, scope, -, hmention⟩ := Declaration.exists_of_mem_references h
  exact (hd v hv).keyed (scope, path) hmention

/-! ### Declarations whose paths have no value -/

section Resolve

variable {table : AttributeTable} {d : Declaration}

theorem Declaration.resolveGuard_of_none {g : Guard}
    (h : ∀ v, g.form = .command v → table.resolve v = ⟨v, v.references, []⟩) :
    (resolveGuard table g).1 = g := by
  obtain ⟨kind, form, span⟩ := g
  cases form with
  | command v =>
    show (⟨kind, .command (table.resolve v).value, span⟩ : Guard) = _
    rw [h v rfl]
  | block body code => rfl

/-- What is reported about a declaration is what is reported about its values, one after another. -/
theorem Declaration.resolve_reported (table : AttributeTable) (d : Declaration) :
    (d.resolve table).unresolved = d.values.flatMap (fun v => (table.resolve v).unresolved) ∧
      (d.resolve table).cycles = d.values.flatMap fun v => (table.resolve v).cycles := by
  have hguards : ∀ f : Resolved → List KeyPath, (∀ v, f (.unchanged v) = []) →
      (d.guards.flatMap fun g => f (resolveGuard table g).2) =
        (d.guards.filterMap Guard.command?).flatMap fun v => f (table.resolve v) := by
    intro f hf
    induction d.guards with
    | nil => rfl
    | cons g rest ih =>
      obtain ⟨kind, form, span⟩ := g
      rw [List.flatMap_cons, ih]
      cases form with
      | command v => rfl
      | block body code => exact congrArg (· ++ _) (hf body)
  have hall : ∀ f : Resolved → List KeyPath, (∀ v, f (.unchanged v) = []) →
      (table.resolve d.name :: (d.properties.map fun q => (q, table.resolve q.value)).map (·.2) ++
          (d.guards.map (resolveGuard table)).map (·.2) ++
          (d.notifications.map fun n => (n, table.resolve n.target)).map (·.2)).flatMap f =
        d.values.flatMap fun v => f (table.resolve v) := by
    intro f hf
    unfold Declaration.values
    simp only [List.map_map, List.cons_append, List.flatMap_cons, List.flatMap_append, List.flatMap_map,
      Function.comp_def, hguards f hf]
  exact ⟨hall _ fun _ => rfl, hall _ fun _ => rfl⟩

/-- A declaration stays as it is when each of its values does, and the paths of all are reported. -/
theorem Declaration.resolve_of_forall (h : ∀ v ∈ d.values, table.resolve v = ⟨v, v.references, []⟩) :
    d.resolve table = ⟨d, d.references, []⟩ := by
  obtain ⟨hname, hproperties, hguards, hnotifications⟩ := Declaration.forall_mem_values.1 h
  have hkept : (d.resolve table).declaration = d := by
    have hproperties' : d.properties.map
        (fun q => ({ q with value := (table.resolve q.value).value } : Property)) = d.properties := by
      refine (List.map_congr_left fun q hq => ?_).trans (List.map_id' _)
      rw [hproperties q hq]
    have hnotifications' : d.notifications.map
        (fun n => ({ n with target := (table.resolve n.target).value } : Notification)) = d.notifications := by
      refine (List.map_congr_left fun n hn => ?_).trans (List.map_id' _)
      rw [hnotifications n hn]
    have hguards' : d.guards.map (fun g => (resolveGuard table g).1) = d.guards :=
      (List.map_congr_left fun g hg => resolveGuard_of_none (hguards g hg)).trans (List.map_id' _)
    unfold Declaration.resolve
    simp only [List.map_map, Function.comp_def, hname, hproperties', hnotifications', hguards']
  obtain ⟨hunresolved, hcycles⟩ := Declaration.resolve_reported table d
  have hreferences : d.values.flatMap (fun v => (table.resolve v).unresolved) = d.references :=
    List.flatMap_congr fun v hv => congrArg Resolved.unresolved (h v hv)
  have hnone : d.values.flatMap (fun v => (table.resolve v).cycles) = [] :=
    List.flatMap_eq_nil_iff.2 fun v hv => congrArg Resolved.cycles (h v hv)
  calc d.resolve table
      = ⟨(d.resolve table).declaration, (d.resolve table).unresolved, (d.resolve table).cycles⟩ := rfl
    _ = ⟨d, d.references, []⟩ := by rw [hkept, hunresolved, hcycles, hreferences, hnone]

/-- A well-formed declaration stays as it is when none of its paths has a value. -/
theorem Declaration.resolve_of_none (hd : ∀ v ∈ d.values, v.WellFormed)
    (hnone : ∀ path ∈ d.references, table.get? path = none) : d.resolve table = ⟨d, d.references, []⟩ :=
  Declaration.resolve_of_forall fun v hv => AttributeTable.resolve_of_get?_eq_none (hd v hv).joined
    fun path hpath => hnone path (List.mem_flatMap.2 ⟨v, hv, hpath⟩)

theorem AttributeTable.get?_empty (path : KeyPath) : (⟨[]⟩ : AttributeTable).get? path = none := rfl

end Resolve

/-! ### Which paths are reported -/

namespace ResolvedDeclaration

/-- Where the texts of paths tell them apart, the paths that are reported are kept once each, as first seen. -/
theorem distinctPaths_eq {paths : List KeyPath} (hpaths : ∀ path ∈ paths, path ≠ [] ∧ path.NulFree) :
    distinctPaths paths = paths.eraseDups := by
  let pair : KeyPath → Text × KeyPath := fun path => (keyPathId path, path)
  have hentries : (Bindings.ofList (paths.map pair)).entries = paths.eraseDups.map pair := by
    induction paths using List.reverseRecOn with
    | nil => rfl
    | append_singleton paths path ih =>
      obtain ⟨hbefore, hlast⟩ := List.forall_mem_append.1 hpaths
      obtain ⟨hne, hfree⟩ := hlast path List.mem_cons_self
      have hset : Bindings.ofList ((paths ++ [path]).map pair) =
          (Bindings.ofList (paths.map pair)).set (keyPathId path) path := by
        unfold Bindings.ofList
        rw [List.map_append, List.foldl_append]
        rfl
      have hsame : ∀ other ∈ paths, keyPathId other = keyPathId path → other = path := fun other hother =>
        (keyPathId_inj (hbefore other hother).2 (hbefore other hother).1 hfree hne).1
      have ih := ih hbefore
      rw [hset]
      by_cases hmem : path ∈ paths
      · obtain ⟨old, hold⟩ : ∃ old, (Bindings.ofList (paths.map pair)).get? (keyPathId path) = some old := by
          rw [← Option.ne_none_iff_exists', ne_eq, Bindings.get?_eq_none_iff, ih]
          exact fun h => h _ (List.mem_map_of_mem (List.mem_eraseDups.2 hmem)) rfl
        rw [Bindings.entries_set_of_get? hold, ih, eraseDups_concat_of_mem hmem]
        -- the entry with the text of the path is the one for the path already
        unfold replaceValue
        rw [List.map_map]
        refine List.map_congr_left fun other hother => ?_
        show (if keyPathId other = keyPathId path then (keyPathId other, path) else _) = _
        split
        · rename_i hid
          rw [hsame other (List.mem_eraseDups.1 hother) hid]
        · rfl
      · have hnone : (Bindings.ofList (paths.map pair)).get? (keyPathId path) = none := by
          rw [Bindings.get?_eq_none_iff, ih]
          intro entry hentry hid
          obtain ⟨other, hother, rfl⟩ := List.mem_map.1 hentry
          have hother := List.mem_eraseDups.1 hother
          exact hmem (hsame other hother hid ▸ hother)
        rw [Bindings.entries_set_of_none hnone, ih, eraseDups_concat_of_not_mem hmem, List.map_append]
        rfl
  unfold distinctPaths
  rw [hentries, List.map_map]
  exact List.map_id' _

/-- What is said about a declaration whose paths have no value, and have keys without the unit that stands
between keys: one warning for each of its paths, as first seen. -/
theorem diagnostics_of_references {d : Declaration} (hd : ∀ v ∈ d.values, v.WellFormed)
    (hfree : ∀ path ∈ d.references, path.NulFree) (source : Text) :
    (⟨d, d.references, []⟩ : ResolvedDeclaration).diagnostics source =
      d.references.eraseDups.map fun path => ⟨.unresolvedPath path, source, d.span, some d.ref⟩ := by
  have hpaths : distinctPaths d.references = d.references.eraseDups :=
    distinctPaths_eq fun path hpath => ⟨Declaration.ne_nil_of_mem_references hd hpath, hfree path hpath⟩
  unfold diagnostics
  simp only [hpaths]
  exact List.append_nil _

end ResolvedDeclaration

end Cookbook
