import Cookbook.Proofs.Task.Keywords
import Cookbook.Proofs.Task.Routes

/-!
# Sensitive values of custom resources

Where each parameter of a custom resource comes from, when the output of its task is hidden, and
which values of sensitive properties are emitted in the open.

* `ParameterSource` is the place a parameter comes from: the name, the actions, a given property, or
  the default of one that is not given; `source?` is the one that a key has in the end;
* `get?_parameters_custom` and `get?_no_log_custom` say what the parameters are and when the output is
  hidden;
* `exposed_iff` says which sensitive values are in the open: only given properties are looked up in the
  definition, so the name and the defaults are not covered, and properties that become keywords are not
  given.
-/

namespace Cookbook

/-! ### Asking for hidden output -/

namespace Mapping

/-- The property that says whether the output of a declaration is hidden: the last of the name. -/
def hiding? (d : Declaration) : Option Property :=
  d.properties.reverse.find? fun p => p.name == ("sensitive" : Text)

theorem get?_no_log_keywordsOf (d : Declaration) :
    (keywordsOf d).get? "no_log" = (hiding? d).map fun p => p.value.task := by
  have hname : (fun p : Property => keywordFor? d.type p.name == some ("no_log" : Text)) =
      fun p => p.name == ("sensitive" : Text) :=
    funext fun p => Bool.eq_iff_iff.2 (by simpa using keywordFor?_eq_no_log d.type p.name)
  rw [get?_keywordsOf (by decide), hname]
  rfl

/-- The declaration itself asks for hidden output. -/
def AsksHidden (d : Declaration) : Prop :=
  ∃ p, hiding? d = some p ∧ p.value = .literal (.bool true)

theorem task_eq_true {v : Value} : v.task = .ofBool true ↔ v = .literal (.bool true) := by
  cases v <;> simp [Value.task, TaskValue.ofBool, TaskValue.ofText]

theorem get?_keywordsOf_eq_true (d : Declaration) :
    (keywordsOf d).get? "no_log" = some (.ofBool true) ↔ AsksHidden d := by
  rw [get?_no_log_keywordsOf]
  simp only [Option.map_eq_some_iff, task_eq_true, AsksHidden]

end Mapping

/-! ### Where parameters come from -/

/-- Where a parameter of a custom resource comes from. -/
inductive ParameterSource where
  /-- The name of the declaration. -/
  | name
  /-- The actions. -/
  | actions (state : TaskValue)
  /-- A property that the declaration gives. -/
  | given (p : Property)
  /-- The default of a property that it does not give. -/
  | filled (s : PropertySchema) (value : Value)

namespace ParameterSource

def key (definition : ResourceDefinition) : ParameterSource → Text
  | name => nameProperty definition.properties
  | actions _ => "state"
  | given p => p.name
  | filled s _ => s.name

def value (d : Declaration) : ParameterSource → TaskValue
  | name => d.name.task
  | actions state => state
  | given p => p.value.task
  | filled _ v => v.task

end ParameterSource

/-- One of the declarations of a property says that it is sensitive. -/
def ResourceDefinition.IsSensitive (definition : ResourceDefinition) (property : Text) : Prop :=
  ∃ s ∈ definition.properties, s.name = property ∧ s.sensitive = true

namespace ParameterSource

/-- The source is a property that is sensitive. -/
def IsSensitive (definition : ResourceDefinition) : ParameterSource → Prop
  | name => definition.IsSensitive (nameProperty definition.properties)
  | actions _ => False
  | given p => definition.IsSensitive p.name
  | filled s _ => s.sensitive = true

/-- The source is not looked up in the definition for being sensitive. Of a given property only the first
declaration is looked at, of the others none. -/
def Unchecked (definition : ResourceDefinition) : ParameterSource → Prop
  | given p => (Mapping.schemaOf? definition p.name).any (·.sensitive) = false
  | _ => True

end ParameterSource

namespace Mapping

section Custom

variable (ctx : MappingContext) (definition : ResourceDefinition) (d : Declaration)
  (actions : List Text)

/-- The declared properties that neither the name nor a property of the declaration fills. -/
def missing : List PropertySchema :=
  definition.properties.filter fun s =>
    s.name != nameProperty definition.properties && !(plainProperties d).any (·.name == s.name)

def filledIn : List ParameterSource :=
  (missing definition d).filterMap fun s =>
    if s.required then none else s.default.map (.filled s)

/-- The sources of the parameters that do not come from the definition, in the order in which they are
set. -/
def declaredSources : List ParameterSource :=
  .name :: (stateParameter actions).map (fun (_, state) => .actions state) ++
    (plainProperties d).map .given

def entryOf (o : ParameterSource) : Text × TaskValue := (o.key definition, o.value d)

/-- The sources of all parameters in the order in which they are set; a default that is assigned to
what all records come from sets none. -/
def sources : List ParameterSource :=
  declaredSources d actions ++
    landing (entryOf definition d)
      ((declaredSources d actions).all fun o => o.key definition != Inherited.prototype.name)
      (filledIn definition d)

/-- The source that a parameter has in the end: the last that sets it. -/
def source? (key : Text) : Option ParameterSource :=
  (sources definition d actions).reverse.find? fun o => o.key definition == key

/-- A given property is sensitive by its first declaration. -/
def GivesSensitive : Prop :=
  ∃ p ∈ plainProperties d, (schemaOf? definition p.name).any (·.sensitive) = true

theorem state_of_mem_stateParameter {entry : Text × TaskValue} (h : entry ∈ stateParameter actions) :
    entry.1 = ("state" : Text) := by
  unfold stateParameter at h
  split at h <;> simp_all

theorem map_declaredSources :
    (declaredSources d actions).map (entryOf definition d) =
      (nameProperty definition.properties, d.name.task) :: stateParameter actions ++
        (plainProperties d).map fun p => (p.name, p.value.task) := by
  have hstate : ((stateParameter actions).map fun (_, state) => ParameterSource.actions state).map
      (entryOf definition d) = stateParameter actions := by
    rw [List.map_map]
    refine (List.map_congr_left fun entry h => ?_).trans (List.map_id _)
    have := state_of_mem_stateParameter actions h
    exact Prod.ext this.symm rfl
  have hgiven : ((plainProperties d).map ParameterSource.given).map (entryOf definition d) =
      (plainProperties d).map fun p => (p.name, p.value.task) := List.map_map
  simp only [declaredSources, List.cons_append, List.map_cons, List.map_append, hstate, hgiven]
  rfl

theorem map_filledIn :
    (filledIn definition d).map (entryOf definition d) =
      (missing definition d).filterMap fun s =>
        if s.required then none else s.default.map fun v => (s.name, v.task) := by
  rw [filledIn, List.map_filterMap]
  refine List.filterMap_congr fun s _ => ?_
  split_ifs
  · rfl
  · cases s.default <;> rfl

theorem parameters_custom :
    (custom ctx definition d actions).parameters =
      .ofList ((sources definition d actions).map (entryOf definition d)) := by
  have hcustom : (custom ctx definition d actions).parameters =
      assignAll (.ofList ((declaredSources d actions).map (entryOf definition d)))
        ((filledIn definition d).map (entryOf definition d)) := by
    rw [map_declaredSources, map_filledIn]
    rfl
  -- the record is ordinary as long as nothing declared is set under the name in question
  have hordinary : ((Fields.ofList ((declaredSources d actions).map (entryOf definition d))).get?
      Inherited.prototype.name).isNone =
        (declaredSources d actions).all fun o => o.key definition != Inherited.prototype.name := by
    rw [Bool.eq_iff_iff, Option.isNone_iff_eq_none, Fields.get?_ofList, lookup?_eq_none_iff,
      List.all_eq_true]
    simp only [List.map_reverse, List.mem_reverse, List.mem_map, not_exists, not_and, entryOf, bne_iff_ne,
      ne_eq, forall_exists_index, and_imp, forall_apply_eq_imp_iff₂]
  rw [hcustom, assignAll, hordinary, landing_map, Fields.setAll_ofList, sources, List.map_append]
  rfl

/-- Each parameter has the value of its source, and there are no others. -/
theorem get?_parameters_custom (key : Text) :
    (custom ctx definition d actions).parameters.get? key =
      (source? definition d actions key).map (·.value d) := by
  rw [parameters_custom, Fields.get?_ofList, ← List.map_reverse, lookup?_map]
  rfl

/-- The output is hidden when the declaration asks for it, or gives a property that is sensitive. -/
theorem get?_no_log_custom :
    (custom ctx definition d actions).keywords.get? "no_log" = some (.ofBool true) ↔
      AsksHidden d ∨ GivesSensitive definition d := by
  have hkeywords : (custom ctx definition d actions).keywords =
      if (plainProperties d).any fun p => (schemaOf? definition p.name).any (·.sensitive) then
        (keywordsOf d).set "no_log" (.ofBool true) else keywordsOf d := rfl
  have hgives : ((plainProperties d).any fun p => (schemaOf? definition p.name).any (·.sensitive)) = true
      ↔ GivesSensitive definition d := List.any_eq_true
  rw [hkeywords]
  split_ifs with h
  · simp [hgives.1 h]
  · rw [get?_keywordsOf_eq_true]
    exact ⟨.inl, fun or => or.resolve_right (h ∘ hgives.2)⟩

/-- The value of a parameter comes from a sensitive property and the output is not hidden. -/
def Exposed (m : MappedResource) (key : Text) : Prop :=
  ∃ o, source? definition d actions key = some o ∧ m.parameters.get? key = some (o.value d) ∧
    o.IsSensitive definition ∧ m.keywords.get? "no_log" ≠ some (.ofBool true)

variable {definition d actions}

theorem mem_plainProperties_of_source? {key : Text} {p : Property}
    (h : source? definition d actions key = some (.given p)) : p ∈ plainProperties d := by
  have hmem : ParameterSource.given p ∈ sources definition d actions :=
    List.mem_reverse.1 (List.mem_of_find?_eq_some h)
  rcases List.mem_append.1 hmem with hdeclared | hfilled
  · simpa [declaredSources] using hdeclared
  · have := (landing_sublist _ _).subset hfilled
    simp [filledIn] at this

/-- A sensitive value is in the open exactly when nothing asks for hidden output and the value came
by a way that is not checked: as the name, as a default, or through a property whose first
declaration is not the sensitive one. -/
theorem exposed_iff {ctx : MappingContext} (hdefinition : ctx.definitions.get? d.type = some definition)
    (htable : ctx.table.get? d.type = none) {m : MappedResource} (hmap : d.map ctx actions = .ok m)
    (key : Text) :
    Exposed definition d actions m key ↔
      ¬ AsksHidden d ∧ ¬ GivesSensitive definition d ∧
        ∃ o, source? definition d actions key = some o ∧ o.IsSensitive definition ∧
          o.Unchecked definition := by
  obtain rfl : m = custom ctx definition d actions := Declaration.map_custom hmap htable hdefinition
  unfold Exposed
  simp only [get?_parameters_custom, Ne, get?_no_log_custom, not_or]
  constructor
  · rintro ⟨o, hsource, -, hsensitive, hasks, hgives⟩
    refine ⟨hasks, hgives, o, hsource, hsensitive, ?_⟩
    cases o with
    | given p =>
      have hp := mem_plainProperties_of_source? hsource
      exact Bool.eq_false_iff.2 fun h => hgives ⟨p, hp, h⟩
    | _ => trivial
  · rintro ⟨hasks, hgives, o, hsource, hsensitive, -⟩
    exact ⟨o, hsource, by rw [hsource]; rfl, hsensitive, hasks, hgives⟩

end Custom

/-- A resource whose secret has a default. -/
def vault : ResourceDefinition :=
  { typeNames := ["vault"]
    properties := [⟨"token", some "String", false, some (.literal (.text "s3cret")), false, true⟩]
    actions := []
    defaultAction := none
    diagnostics := [] }

/-- A declaration of the type that gives nothing but a name. -/
def vaultDeclaration : Declaration :=
  { type := "vault", name := .literal (.text "a"), actions := [], properties := [], guards := []
    notifications := [], context := [], inLoop := false, malformed := false, usesSearch := false
    span := ⟨⟨1, 1, 0⟩, ⟨1, 1, 0⟩⟩, source := [] }

def vaultContext : MappingContext :=
  ⟨[], .empty, .ofList [("vault", vault)], "local.cookbook", "command"⟩

/-- The default of a sensitive property is in the open. -/
theorem default_token_exposed :
    ∃ m, vaultDeclaration.map vaultContext [] = .ok m ∧
      Exposed vault vaultDeclaration [] m "token" := by
  have hasks : ¬ AsksHidden vaultDeclaration := by
    rintro ⟨p, hp, -⟩
    cases hp
  have hgives : ¬ GivesSensitive vault vaultDeclaration := by
    rintro ⟨p, hp, -⟩
    cases hp
  obtain ⟨m, hmap⟩ : ∃ m, vaultDeclaration.map vaultContext [] = .ok m := ⟨_, rfl⟩
  exact ⟨m, hmap, (exposed_iff rfl rfl hmap "token").2 ⟨hasks, hgives, _, rfl, rfl, trivial⟩⟩

end Mapping

end Cookbook
