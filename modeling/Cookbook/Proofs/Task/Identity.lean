import Cookbook.Proofs.Task.Destinations
import Mathlib.Tactic.MkIffOfInductiveProp

/-!
# The parameter that names an object

A built-in type has a parameter for the object that its task is about. The name of a declaration fills it
first, and a property that is renamed to it replaces the name. Some actions of files have another module
do the work, with a parameter of its own for the object; no property is renamed to that one, so the name
stays there.

* `relocatingActions` are these actions, `Relocates` is what a mapping says of them, and
  `relocates_builtin` that the table says so;
* `nameParam?_of_relocating` and `nameParam?_of_staying` say which parameter it is;
* `Declaration.identity_unless_relocated` is the result.
-/

namespace Cookbook

open Mapping

namespace Mapping

/-- The actions of a built-in type that another module carries out. -/
def relocatingActions (type : Text) : List Text :=
  if type = ("file" : Text) then ["touch", "delete"]
  else if type = ("template" : Text) ∨ type = ("cookbook_file" : Text) ∨ type = ("remote_file" : Text) then
    ["delete"]
  else []

/-- What the mapping of a type says of the parameter for the object. -/
@[mk_iff]
structure Relocates (type : Text) (mapping : ResourceMapping) : Prop where
  /-- The relocating actions are supported. -/
  supported : ∀ a ∈ relocatingActions type, (mapping.actions.get? a).isSome = true
  /-- They ask for the parameter of the other module, and no others ask for one. -/
  asks : ∀ a ∈ mapping.actions.entries,
    a.2.nameParam = if a.1 ∈ relocatingActions type then some ("path" : Text) else none
  /-- None is done by default. -/
  default : mapping.defaultAction ∉ relocatingActions type
  /-- The name gives the parameter by itself. -/
  plain : relocatingActions type ≠ [] → type ≠ ("include_recipe" : Text)
  /-- No property becomes it. -/
  properties : relocatingActions type ≠ [] → ∀ p ∈ mapping.properties.entries, p.2 ≠ ("path" : Text)
  /-- No action sets it. -/
  effects : relocatingActions type ≠ [] → ∀ a ∈ mapping.actions.entries, ("path" : Text) ∉ a.2.params.keys
  /-- The properties that become parameters are no keywords. -/
  keywords : ∀ p ∈ mapping.properties.entries, keywordFor? type p.1 = none
  /-- The parameter can be assigned. -/
  assignable : mapping.nameParam ≠ some Inherited.prototype.name

theorem relocates_entries : ∀ entry ∈ ResourceTable.builtin.entries, Relocates entry.1 entry.2 := by
  simp only [relocates_iff]
  decide +kernel

theorem relocates_builtin {type : Text} {mapping : ResourceMapping}
    (h : ResourceTable.builtin.get? type = some mapping) : Relocates type mapping :=
  relocates_entries _ (mem_of_lookup? h)

/-- No built-in type is named like a member of all records. -/
theorem ordinary_of_builtin {type : Text} {mapping : ResourceMapping}
    (h : ResourceTable.builtin.get? type = some mapping) (t : Inherited) : t.name ≠ type := by
  have hnone : ∀ t ∈ Inherited.all, (ResourceTable.builtin.get? t.name).isNone = true := by decide +kernel
  rintro rfl
  have := hnone t t.mem_all
  rw [h] at this
  cases this

/-- A supported action has an entry, or names a member and asks nothing. -/
theorem effectOf?_cases {mapping : ResourceMapping} {a : Text} {e : ActionEffect}
    (h : effectOf? mapping a = some e) :
    mapping.actions.get? a = some e ∨ (∃ t : Inherited, t.name = a) ∧ e = ⟨.empty, none, none⟩ := by
  rcases Option.or_eq_some_iff.1 h with hown | ⟨-, hmember⟩
  · exact .inl hown
  · obtain ⟨t, ht, rfl⟩ := Option.map_eq_some_iff.1 hmember
    exact .inr ⟨⟨t, Inherited.ofName?_eq_some_iff.1 ht⟩, rfl⟩

theorem name_notMem_relocatingActions (t : Inherited) (type : Text) : t.name ∉ relocatingActions type := by
  have h : t.name ∉ (["touch", "delete"] : List Text) := by cases t <;> decide
  unfold relocatingActions
  split_ifs
  · exact h
  · exact fun hmem => h (List.mem_cons_of_mem _ hmem)
  · exact List.not_mem_nil

/-! ### Which parameter it is -/

section Mapped

variable {type : Text} {mapping : ResourceMapping} (h : Relocates type mapping) {actions : List Text}

include h

/-- An effect comes from an action that runs, and asks for the other module's parameter when that is a
relocating one. -/
theorem exists_action_of_mem_effects {e : ActionEffect} (he : e ∈ effects mapping actions) :
    ∃ a ∈ effectiveActions mapping actions,
      e.nameParam = if a ∈ relocatingActions type then some ("path" : Text) else none := by
  obtain ⟨a, ha, hget⟩ := List.mem_filterMap.1 he
  refine ⟨a, ha, ?_⟩
  rcases effectOf?_cases hget with hown | ⟨⟨t, rfl⟩, rfl⟩
  · exact h.asks _ (mem_of_lookup? hown)
  · rw [if_neg (name_notMem_relocatingActions t type)]

/-- Where an action relocates, none of the effects sets the parameter of the other module. -/
theorem lookup?_path_askedParameters (hsome : relocatingActions type ≠ []) :
    lookup? "path" (askedParameters mapping actions).reverse = none := by
  rw [lookup?_eq_none_iff, List.map_reverse, List.mem_reverse]
  intro hpath
  obtain ⟨pair, hpair, hkey⟩ := List.mem_map.1 hpath
  obtain ⟨e, he, hentry⟩ := List.mem_flatMap.1 hpair
  obtain ⟨a, -, hget⟩ := List.mem_filterMap.1 he
  rcases effectOf?_cases hget with hown | ⟨-, rfl⟩
  · exact h.effects hsome _ (mem_of_lookup? hown) (List.mem_map.2 ⟨pair, hentry, hkey⟩)
  · exact absurd hentry List.not_mem_nil

theorem mem_of_mem_effectiveActions {a : Text} (ha : a ∈ effectiveActions mapping actions)
    (hrelocating : a ∈ relocatingActions type) : a ∈ actions := by
  unfold effectiveActions at ha
  split_ifs at ha
  · rw [List.mem_singleton.1 ha] at hrelocating
    exact absurd hrelocating h.default
  · exact ha

theorem nameParam?_of_staying (hstays : ∀ a ∈ actions, a ∉ relocatingActions type) :
    nameParam? mapping actions = mapping.nameParam := by
  have hnone : (effects mapping actions).filterMap (·.nameParam) = [] := by
    rw [List.filterMap_eq_nil_iff]
    intro e he
    obtain ⟨a, ha, hparam⟩ := exists_action_of_mem_effects h he
    have hstay : a ∉ relocatingActions type := fun hrelocating =>
      hstays a (mem_of_mem_effectiveActions h ha hrelocating) hrelocating
    rw [hparam, if_neg hstay]
  rw [nameParam?, hnone]
  rfl

variable {a : Text} (ha : a ∈ actions) (hrelocating : a ∈ relocatingActions type)

include ha hrelocating

/-- The last action that asks for another parameter asks for that of the other module, as all do. -/
theorem nameParam?_of_relocating : nameParam? mapping actions = some "path" := by
  obtain ⟨e, he⟩ := Option.isSome_iff_exists.1 (h.supported a hrelocating)
  have heffect : e ∈ effects mapping actions := by
    refine List.mem_filterMap.2 ⟨a, ?_, by rw [effectOf?, he]; rfl⟩
    rw [effectiveActions, if_neg (by simpa using List.ne_nil_of_mem ha)]
    exact ha
  have hpath : ("path" : Text) ∈ (effects mapping actions).filterMap (·.nameParam) := by
    refine List.mem_filterMap.2 ⟨e, heffect, ?_⟩
    rw [h.asks _ (mem_of_lookup? he), if_pos hrelocating]
  have hall : ∀ param ∈ (effects mapping actions).filterMap (·.nameParam), param = ("path" : Text) := by
    intro param hparam
    obtain ⟨e', he', hasks⟩ := List.mem_filterMap.1 hparam
    obtain ⟨_, -, hnameParam⟩ := exists_action_of_mem_effects h he'
    rw [hnameParam] at hasks
    split_ifs at hasks
    exact (Option.some.inj hasks).symm
  have hne := List.ne_nil_of_mem hpath
  rw [nameParam?, List.getLast?_eq_some_getLast hne, hall _ (List.getLast_mem hne)]
  rfl

theorem get?_path_of_relocating (d : Declaration) (htype : d.type = type) (source : Text) :
    (builtin source mapping d actions).parameters.get? "path" = some d.name.task := by
  have hsome := List.ne_nil_of_mem hrelocating
  have hrenamed : renamed? mapping d "path" = none := by
    rw [renamed?, List.find?_eq_none]
    intro p _ hp
    exact h.properties hsome _ (mem_of_lookup? (beq_iff_eq.1 hp)) rfl
  have hname : (nameParameters mapping d actions).get? "path" = some d.name.task := by
    rw [nameParameters, if_neg (htype ▸ h.plain hsome), nameParam?_of_relocating h ha hrelocating]
    exact Fields.get?_ofList _ _
  rw [get?_parameters_builtin mapping d actions source (by decide), hrenamed,
    lookup?_path_askedParameters h hsome, hname]
  rfl

end Mapped

theorem renamed?_eq {type : Text} {mapping : ResourceMapping} (h : Relocates type mapping) (d : Declaration)
    (htype : d.type = type) (param : Text) :
    renamed? mapping d param =
      d.properties.reverse.find? fun p => mapping.properties.get? p.name == some param := by
  unfold renamed? plainProperties
  rw [← List.filter_reverse, List.find?_filter]
  congr 1
  funext p
  cases hrenamed : mapping.properties.get? p.name with
  | none => simp
  | some own =>
    rw [htype, h.keywords _ (mem_of_lookup? hrenamed)]
    exact Bool.eq_iff_iff.2 (by simp)

end Mapping

/-- The parameter that names the object for the module that is chosen has the value of the last property
that is renamed to the type's own name parameter, unless one of the actions is relocating: then it has the
name of the declaration. -/
theorem Declaration.identity_unless_relocated {ctx : MappingContext} {d : Declaration} {mapping : ResourceMapping}
    {own : Text} {p : Property} (hbuiltin : ResourceTable.builtin.get? d.type = some mapping)
    (htable : ctx.table.get? d.type = some mapping) (hown : mapping.nameParam = some own)
    (hp : (d.properties.reverse.find? fun p => mapping.properties.get? p.name == some own) = some p)
    (actions : List Text) :
    ∃ m param, d.map ctx actions = .ok m ∧ nameParam? mapping actions = some param ∧
      m.parameters.get? param =
        some (if ∃ a ∈ actions, a ∈ relocatingActions d.type then d.name.task else p.value.task) := by
  have h := relocates_builtin hbuiltin
  obtain ⟨m, hmap⟩ : ∃ m, d.map ctx actions = .ok m :=
    Declaration.exists_map_eq_ok_iff.2 fun t ht => absurd ht (ordinary_of_builtin hbuiltin t)
  obtain rfl := Declaration.map_builtin hmap htable
  split_ifs with hrelocated
  · -- the parameter is the one of the other module, which only the name fills
    obtain ⟨a, ha, hrelocating⟩ := hrelocated
    exact ⟨_, "path", hmap, nameParam?_of_relocating h ha hrelocating,
      get?_path_of_relocating h ha hrelocating d rfl ctx.source⟩
  · push Not at hrelocated
    refine ⟨_, own, hmap, (nameParam?_of_staying h hrelocated).trans hown, ?_⟩
    have hassignable : own ≠ Inherited.prototype.name := fun hname => h.assignable (hname ▸ hown)
    rw [get?_parameters_builtin mapping d actions ctx.source hassignable, renamed?_eq h d rfl, hp]
    rfl

/-- A file with a name of its own for its path. -/
def namedFile : Declaration :=
  .plain "file" (.ofText "stale pid") [⟨"path", .ofText "/tmp/stale.pid", ⟨⟨2, 3, 21⟩, ⟨2, 24, 42⟩⟩⟩]

/-- A file is created at its path, and the one that has its name is deleted. -/
theorem name_deleted_for_path :
    ∃ mapping created deleted, ResourceTable.builtin.get? namedFile.type = some mapping ∧
      builtinContext.table.get? namedFile.type = some mapping ∧ mapping.nameParam = some "dest" ∧
      namedFile.map builtinContext ["create"] = .ok created ∧
      created.parameters.get? "dest" = some (.ofText "/tmp/stale.pid") ∧
      nameParam? mapping ["delete"] = some "path" ∧
      namedFile.map builtinContext ["delete"] = .ok deleted ∧
      deleted.parameters.get? "path" = some (.ofText "stale pid") := by
  have hfile : (ResourceTable.builtin.get? "file").map (fun m =>
      (m.nameParam, m.properties.get? "path", nameParam? m ["create"], nameParam? m ["delete"])) =
        some (some ("dest" : Text), some ("dest" : Text), some ("dest" : Text), some ("path" : Text)) := by
    decide +kernel
  obtain ⟨mapping, hbuiltin, hvalues⟩ := Option.map_eq_some_iff.1 hfile
  simp only [Prod.mk.injEq] at hvalues
  obtain ⟨hown, hpath, hcreate, hdelete⟩ := hvalues
  have htable : builtinContext.table.get? namedFile.type = some mapping := hbuiltin
  have hp : (namedFile.properties.reverse.find? fun p => mapping.properties.get? p.name == some "dest") =
      some ⟨"path", .ofText "/tmp/stale.pid", ⟨⟨2, 3, 21⟩, ⟨2, 24, 42⟩⟩⟩ := by
    simp [namedFile, Declaration.plain, hpath]
  have hnamed := Declaration.identity_unless_relocated hbuiltin htable hown hp
  obtain ⟨created, param, hcreated, hparam, hdest⟩ := hnamed ["create"]
  obtain rfl := Option.some.inj (hcreate.symm.trans hparam)
  obtain ⟨deleted, param, hdeleted, hparam, hname⟩ := hnamed ["delete"]
  obtain rfl := Option.some.inj (hdelete.symm.trans hparam)
  exact ⟨mapping, created, deleted, hbuiltin, htable, hown, hcreated, hdest, hdelete, hdeleted, hname⟩

end Cookbook
