import Cookbook.Conversion.Basic
import Cookbook.Proofs.Task.Sensitivity

/-!
# Where properties go

The name of a property and the type of its declaration decide where its value goes: to a keyword of the
task, to a parameter, to a variable of a placeholder, or, for built-in types alone, nowhere, with a
warning. The last property with a destination gives the value there, whatever the name, the actions and
the definition ask for; only hidden output may be asked for by the definition too. Properties that are
named like a member of all records go to keywords of no meaning, without a warning, and a declaration
whose type is named so is mapped only when its type has an entry of its own.

* `GoesTo` is where a property goes, `Supplies` the property that gives the value at a destination, and
  `MappingContext.destination` and `MappingContext.supplier?` compute them (`goesTo_iff`,
  `supplies_iff`);
* `at?_builtin`, `at?_custom` and `at?_fallback` are the three routes, and
  `ResourceTable.isSome_get?_ofLayers` keeps the types with variables of their own out of the last;
* `droppedWarnings_map` says which warnings there are about dropped properties;
* `Declaration.properties_accounted` is the result.
-/

namespace Cookbook

open Mapping

/-- Where the value of a property goes. -/
inductive Destination where
  /-- A keyword of the task. -/
  | keyword (name : Text)
  /-- A parameter of the module. -/
  | parameter (name : Text)
  /-- A variable of a placeholder. -/
  | var (name : Text)
  /-- Nowhere. -/
  | dropped
deriving DecidableEq

def MappedResource.at? (m : MappedResource) : Destination → Option TaskValue
  | .keyword name => m.keywords.get? name
  | .parameter name => m.parameters.get? name
  | .var name =>
    match m.keywords.get? "vars" with
    | some (.map fields) => fields.get? name
    | _ => none
  | .dropped => none

/-- A property that becomes no keyword. -/
def IsPlain (type property : Text) : Prop :=
  ∀ keyword, ¬ TaskKeyword type property keyword ∧ ¬ MemberKeyword type property keyword

/-- Where a property goes, by its name and the type of its declaration. -/
inductive GoesTo (ctx : MappingContext) (type : Text) : (property : Text) → Destination → Prop
  /-- A keyword that the property is meant to become. -/
  | keyword {property keyword : Text} (h : TaskKeyword type property keyword) :
    GoesTo ctx type property (.keyword keyword)
  /-- A keyword that is none, since the property names a member of all records. -/
  | member {property keyword : Text} (h : MemberKeyword type property keyword) :
    GoesTo ctx type property (.keyword keyword)
  /-- A built-in type renames the property. -/
  | renamed {property param : Text} {mapping : ResourceMapping} (hplain : IsPlain type property)
    (htable : ctx.table.get? type = some mapping) (h : mapping.properties.get? property = some param) :
    GoesTo ctx type property (.parameter param)
  /-- A built-in type has no parameter for it. -/
  | dropped {property : Text} {mapping : ResourceMapping} (hplain : IsPlain type property)
    (htable : ctx.table.get? type = some mapping) (h : mapping.properties.get? property = none) :
    GoesTo ctx type property .dropped
  /-- A custom type keeps it under its own name. -/
  | own {property : Text} (hplain : IsPlain type property) (htable : ctx.table.get? type = none)
    (h : ctx.definitions.contains type = true) : GoesTo ctx type property (.parameter property)
  /-- A placeholder keeps it as a variable. -/
  | var {property : Text} (hplain : IsPlain type property) (htable : ctx.table.get? type = none)
    (h : ctx.definitions.contains type = false) : GoesTo ctx type property (.var property)

/-- A property gives the value at a destination: it goes there, and none after it does. -/
structure Supplies (ctx : MappingContext) (d : Declaration) (destination : Destination) (p : Property) :
    Prop where
  goes : GoesTo ctx d.type p.name destination
  last : ∃ before after, d.properties = before ++ p :: after ∧
    ∀ q ∈ after, ¬ GoesTo ctx d.type q.name destination

namespace MappingContext

/-- Where a property goes that is no keyword: a built-in type renames it or drops it, a custom type
keeps it as a parameter, and any other type as a variable. -/
def plainDestination (ctx : MappingContext) (type property : Text) : Destination :=
  match ctx.table.get? type with
  | some mapping =>
    match mapping.properties.get? property with
    | some param => .parameter param
    | none => .dropped
  | none => if ctx.definitions.contains type then .parameter property else .var property

def destination (ctx : MappingContext) (type property : Text) : Destination :=
  match keywordFor? type property with
  | some keyword => .keyword keyword
  | none => ctx.plainDestination type property

/-- The property that gives the value at a destination: the last that goes there. -/
def supplier? (ctx : MappingContext) (d : Declaration) (destination : Destination) : Option Property :=
  d.properties.reverse.find? fun p => ctx.destination d.type p.name == destination

/-- The definition of a custom type hides the output: a property that the declaration gives is
sensitive. -/
def forcesHidden (ctx : MappingContext) (d : Declaration) : Bool :=
  match ctx.table.get? d.type, ctx.definitions.get? d.type with
  | none, some definition =>
    (plainProperties d).any fun p => (schemaOf? definition p.name).any (·.sensitive)
  | _, _ => false

/-- The value at the destination of a property: its own, unless the definition hides the output. -/
def emitted (ctx : MappingContext) (d : Declaration) (destination : Destination) (p : Property) : TaskValue :=
  if destination = .keyword "no_log" ∧ ctx.forcesHidden d = true then .ofBool true else p.value.task

end MappingContext

/-! ### What goes where -/

theorem isPlain_iff {type property : Text} : IsPlain type property ↔ keywordFor? type property = none := by
  simp only [IsPlain, ← not_or, ← keywordFor?_eq_some_iff, Option.eq_none_iff_forall_ne_some, ne_eq]

theorem goesTo_iff {ctx : MappingContext} {type property : Text} {destination : Destination} :
    GoesTo ctx type property destination ↔ ctx.destination type property = destination := by
  unfold MappingContext.destination MappingContext.plainDestination
  constructor
  · intro h
    cases h with
    | keyword h => rw [keywordFor?_of_taskKeyword h]
    | member h => rw [keywordFor?_of_memberKeyword h]
    | renamed hplain htable h => simp only [isPlain_iff.1 hplain, htable, h]
    | dropped hplain htable h => simp only [isPlain_iff.1 hplain, htable, h]
    | own hplain htable h => simp only [isPlain_iff.1 hplain, htable, h, if_true]
    | var hplain htable h => simp only [isPlain_iff.1 hplain, htable, h, Bool.false_eq_true, if_false]
  · rintro rfl
    cases hkeyword : keywordFor? type property with
    | some keyword => exact (keywordFor?_eq_some_iff.1 hkeyword).elim .keyword .member
    | none =>
      have hplain := isPlain_iff.2 hkeyword
      cases htable : ctx.table.get? type with
      | some mapping =>
        cases hproperty : mapping.properties.get? property with
        | some param => simpa only [hproperty] using GoesTo.renamed hplain htable hproperty
        | none => simpa only [hproperty] using GoesTo.dropped hplain htable hproperty
      | none =>
        cases hdefined : ctx.definitions.contains type with
        | true => exact .own hplain htable hdefined
        | false => exact .var hplain htable hdefined

instance (ctx : MappingContext) (type property : Text) (destination : Destination) :
    Decidable (GoesTo ctx type property destination) := decidable_of_iff _ goesTo_iff.symm

theorem supplies_iff {ctx : MappingContext} {d : Declaration} {destination : Destination} {p : Property} :
    Supplies ctx d destination p ↔ ctx.supplier? d destination = some p := by
  unfold MappingContext.supplier?
  rw [List.find?_eq_some_iff_append]
  simp only [beq_iff_eq, ← goesTo_iff, Bool.not_eq_true', beq_eq_false_iff_ne, ne_eq]
  constructor
  · rintro ⟨hgoes, before, after, hproperties, hlast⟩
    refine ⟨hgoes, after.reverse, before.reverse, by simp [hproperties], fun q hq => ?_⟩
    exact hlast q (List.mem_reverse.1 hq)
  · rintro ⟨hgoes, after, before, hproperties, hlast⟩
    refine ⟨hgoes, before.reverse, after.reverse, ?_, fun q hq => hlast q (List.mem_reverse.1 hq)⟩
    simpa using congrArg List.reverse hproperties

section Suppliers

variable (ctx : MappingContext) (d : Declaration)

theorem plainDestination_ne_keyword (type property keyword : Text) :
    ctx.plainDestination type property ≠ .keyword keyword := by
  unfold MappingContext.plainDestination
  split
  · split <;> simp
  · split_ifs <;> simp

theorem supplier?_keyword (keyword : Text) :
    ctx.supplier? d (.keyword keyword) =
      d.properties.reverse.find? fun p => keywordFor? d.type p.name == some keyword := by
  unfold MappingContext.supplier? MappingContext.destination
  congr 1
  funext p
  cases keywordFor? d.type p.name with
  | none => simpa using plainDestination_ne_keyword ctx d.type p.name keyword
  | some own => exact Bool.eq_iff_iff.2 (by simp)

/-- Only properties that are no keywords go anywhere else. -/
theorem supplier?_plain {destination : Destination} (h : ∀ keyword, destination ≠ .keyword keyword) :
    ctx.supplier? d destination =
      (plainProperties d).reverse.find? fun p => ctx.plainDestination d.type p.name == destination := by
  unfold MappingContext.supplier? MappingContext.destination plainProperties
  rw [← List.filter_reverse, List.find?_filter]
  congr 1
  funext p
  cases keywordFor? d.type p.name with
  | none => exact Bool.eq_iff_iff.2 (by simp)
  | some keyword => simpa using (h keyword).symm

theorem plainDestination_of_supplier? {destination : Destination}
    (h : ∀ keyword, destination ≠ .keyword keyword) {p : Property}
    (hsupplier : ctx.supplier? d destination = some p) :
    ctx.plainDestination d.type p.name = destination := by
  rw [supplier?_plain ctx d h] at hsupplier
  simpa using List.find?_some hsupplier

/-- Where properties keep their names, the last of a name gives the value. -/
theorem supplier?_own {own : Text → Destination}
    (hplain : ∀ property, ctx.plainDestination d.type property = own property)
    (hkeyword : ∀ name keyword, own name ≠ .keyword keyword) (hinjective : Function.Injective own)
    (name : Text) :
    ctx.supplier? d (own name) = (plainProperties d).reverse.find? fun p => p.name == name := by
  rw [supplier?_plain ctx d (hkeyword name)]
  congr 1
  funext p
  rw [hplain]
  exact Bool.eq_iff_iff.2 (by simp [hinjective.eq_iff])

theorem get?_keywordsOf_of_supplier? {keyword : Text} {p : Property}
    (h : ctx.supplier? d (.keyword keyword) = some p) : (keywordsOf d).get? keyword = some p.value.task := by
  rw [supplier?_keyword] at h
  have hkeyword : keywordFor? d.type p.name = some keyword := by simpa using List.find?_some h
  rw [get?_keywordsOf (keyword_ne_become hkeyword), h]
  rfl

end Suppliers

/-! ### Built-in types -/

namespace Mapping

section Builtin

variable (mapping : ResourceMapping) (d : Declaration) (actions : List Text)

def effects : List ActionEffect := (effectiveActions mapping actions).filterMap (effectOf? mapping)

/-- The parameter that takes the name: the last that an action asks for, or else the one of the type. -/
def nameParam? : Option Text :=
  (((effects mapping actions).filterMap (·.nameParam)).getLast?).or mapping.nameParam

def nameParameters : Fields TaskValue :=
  if d.type = ("include_recipe" : Text) then includeParameters d.name
  else match nameParam? mapping actions with
    | some param => .ofList [(param, d.name.task)]
    | none => .empty

def askedParameters : List (Text × TaskValue) :=
  (effects mapping actions).flatMap (·.params.entries)

/-- The property that is renamed to a parameter: the last. -/
def renamed? (param : Text) : Option Property :=
  (plainProperties d).reverse.find? fun p => mapping.properties.get? p.name == some param

/-- A parameter has the value of the last property that is renamed to it, and without such a property the
one that the actions ask for last, or else the one that the name gives. -/
theorem get?_parameters_builtin (source : Text) {param : Text} (h : param ≠ Inherited.prototype.name) :
    (builtin source mapping d actions).parameters.get? param =
      ((renamed? mapping d param).map fun p => p.value.task).or
        ((lookup? param (askedParameters mapping actions).reverse).or
          ((nameParameters mapping d actions).get? param)) := by
  have hparameters : (builtin source mapping d actions).parameters =
      assignAll (nameParameters mapping d actions) (askedParameters mapping actions ++
        (plainProperties d).filterMap fun p =>
          (mapping.properties.get? p.name).map fun own => (own, p.value.task)) := rfl
  rw [hparameters, get?_assignAll h, List.reverse_append, lookup?_append, ← List.filterMap_reverse,
    lookup?_filterMap, Option.or_assoc]
  rfl

end Builtin

end Mapping

section Routes

variable {ctx : MappingContext} {d : Declaration} {p : Property} {destination : Destination}

theorem plainDestination_builtin {mapping : ResourceMapping} (htable : ctx.table.get? d.type = some mapping)
    (property : Text) :
    ctx.plainDestination d.type property =
      (mapping.properties.get? property).elim .dropped .parameter := by
  rw [MappingContext.plainDestination, htable]
  dsimp only
  cases mapping.properties.get? property <;> rfl

theorem supplier?_builtin {mapping : ResourceMapping} (htable : ctx.table.get? d.type = some mapping)
    (param : Text) : ctx.supplier? d (.parameter param) = renamed? mapping d param := by
  rw [supplier?_plain ctx d (by simp)]
  unfold renamed?
  congr 1
  funext p
  rw [plainDestination_builtin htable]
  cases mapping.properties.get? p.name <;> exact Bool.eq_iff_iff.2 (by simp)

/-- A built-in type: the properties are set after what the name and the actions ask for. -/
theorem at?_builtin {mapping : ResourceMapping} (htable : ctx.table.get? d.type = some mapping)
    (hsupplier : ctx.supplier? d destination = some p) (hkept : destination ≠ .dropped)
    (hfield : destination ≠ .parameter Inherited.prototype.name) (actions : List Text) :
    (builtin ctx.source mapping d actions).at? destination = some (ctx.emitted d destination p) := by
  have hforces : ctx.forcesHidden d = false := by rw [MappingContext.forcesHidden, htable]
  have hvalue : ctx.emitted d destination p = p.value.task := by simp [MappingContext.emitted, hforces]
  rw [hvalue]
  cases destination with
  | keyword name => exact get?_keywordsOf_of_supplier? ctx d hsupplier
  | parameter name =>
    rw [supplier?_builtin htable] at hsupplier
    have hname : name ≠ Inherited.prototype.name := fun h => hfield (h ▸ rfl)
    rw [MappedResource.at?, get?_parameters_builtin mapping d actions ctx.source hname, hsupplier]
    rfl
  | var name =>
    -- a built-in type has no variables, so no property goes to one
    have hp := plainDestination_of_supplier? ctx d (by simp) hsupplier
    rw [plainDestination_builtin htable] at hp
    cases hparam : mapping.properties.get? p.name <;> simp [hparam] at hp
  | dropped => exact absurd rfl hkept

/-! ### Custom types -/

/-- Defaults are filled in for properties that are not given, and the name and the actions come first. -/
theorem source?_of_given {definition : ResourceDefinition} {actions : List Text} {name : Text}
    (h : (plainProperties d).reverse.find? (fun p => p.name == name) = some p) :
    source? definition d actions name = some (.given p) := by
  -- the defaults are set after the given properties, but never one that is given
  have hfilled : ∀ o ∈ filledIn definition d, o.key definition ≠ name := by
    intro o ho hkey
    obtain ⟨s, hs, hso⟩ := List.mem_filterMap.1 ho
    split_ifs at hso
    obtain ⟨v, -, rfl⟩ := Option.map_eq_some_iff.1 hso
    have hgiven : (plainProperties d).any (fun p => p.name == s.name) = true := by
      rw [List.any_eq_true]
      refine ⟨p, List.mem_reverse.1 (List.mem_of_find?_eq_some h), ?_⟩
      have hp := List.find?_some h
      simp only [beq_iff_eq] at hp ⊢
      exact hp.trans hkey.symm
    simp [missing, hgiven] at hs
  have hlanded : (landing (entryOf definition d)
      ((declaredSources d actions).all fun o => o.key definition != Inherited.prototype.name)
      (filledIn definition d)).reverse.find? (fun o => o.key definition == name) = none := by
    rw [List.find?_eq_none]
    intro o ho hkey
    exact hfilled o ((landing_sublist _ _).subset (List.mem_reverse.1 ho)) (beq_iff_eq.1 hkey)
  have hgiven : ((plainProperties d).map ParameterSource.given).reverse.find?
      (fun o => o.key definition == name) = some (.given p) := by
    rw [← List.map_reverse, List.find?_map]
    exact congrArg (Option.map _) h
  unfold source? sources
  rw [List.reverse_append, List.find?_append, hlanded, Option.none_or, declaredSources,
    List.reverse_append, List.find?_append, hgiven, Option.some_or]

/-- A custom type: defaults fill what is not given, and the definition may ask for hidden output. -/
theorem at?_custom {definition : ResourceDefinition} (htable : ctx.table.get? d.type = none)
    (hdefinition : ctx.definitions.get? d.type = some definition)
    (hsupplier : ctx.supplier? d destination = some p) (hkept : destination ≠ .dropped)
    (actions : List Text) :
    (custom ctx definition d actions).at? destination = some (ctx.emitted d destination p) := by
  have hplain : ∀ property, ctx.plainDestination d.type property = .parameter property := by
    intro property
    simp [MappingContext.plainDestination, htable, Bindings.contains, hdefinition]
  cases destination with
  | keyword name =>
    have hvalue := get?_keywordsOf_of_supplier? ctx d hsupplier
    have hforces : ctx.forcesHidden d =
        (plainProperties d).any fun p => (schemaOf? definition p.name).any (·.sensitive) := by
      rw [MappingContext.forcesHidden, htable, hdefinition]
    show Fields.get? (if (plainProperties d).any fun p => (schemaOf? definition p.name).any (·.sensitive)
      then (keywordsOf d).set "no_log" (.ofBool true) else keywordsOf d) name = _
    rw [← hforces]
    unfold MappingContext.emitted
    cases ctx.forcesHidden d with
    | false => simpa using hvalue
    | true =>
      by_cases hname : name = ("no_log" : Text)
      · simp [hname]
      · simpa [hname] using hvalue
  | parameter name =>
    rw [supplier?_own ctx d hplain (by simp) fun _ _ => Destination.parameter.inj] at hsupplier
    rw [MappedResource.at?, get?_parameters_custom, source?_of_given hsupplier]
    rfl
  | var name =>
    have hp := plainDestination_of_supplier? ctx d (by simp) hsupplier
    rw [hplain] at hp
    cases hp
  | dropped => exact absurd rfl hkept

/-! ### Other types -/

/-- Any other type: the properties that are no keywords are the variables. -/
theorem at?_fallback (htemplate : d.type ≠ ("template" : Text)) (htable : ctx.table.get? d.type = none)
    (hdefinition : ctx.definitions.get? d.type = none)
    (hsupplier : ctx.supplier? d destination = some p) (hkept : destination ≠ .dropped)
    (actions : List Text) :
    (fallback ctx d actions).at? destination = some (ctx.emitted d destination p) := by
  have hforces : ctx.forcesHidden d = false := by rw [MappingContext.forcesHidden, htable, hdefinition]
  have hvalue : ctx.emitted d destination p = p.value.task := by simp [MappingContext.emitted, hforces]
  have hplain : ∀ property, ctx.plainDestination d.type property = .var property := by
    intro property
    simp [MappingContext.plainDestination, htable, Bindings.contains, hdefinition]
  rw [hvalue]
  cases destination with
  | keyword name =>
    have hkeyword := get?_keywordsOf_of_supplier? ctx d hsupplier
    -- the variables are set last, and would replace a keyword of that name
    have hvars : name ≠ ("vars" : Text) := by
      rintro rfl
      rw [supplier?_keyword] at hsupplier
      exact htemplate (type_of_keyword_vars (by simpa using List.find?_some hsupplier))
    show Fields.get? (if (plainProperties d).isEmpty then keywordsOf d
      else (keywordsOf d).set "vars" _) name = _
    split_ifs
    · exact hkeyword
    · rw [Fields.get?_set, if_neg hvars, hkeyword]
  | parameter name =>
    have hp := plainDestination_of_supplier? ctx d (by simp) hsupplier
    rw [hplain] at hp
    cases hp
  | var name =>
    rw [supplier?_own ctx d hplain (by simp) fun _ _ => Destination.var.inj] at hsupplier
    have hsome : (plainProperties d).isEmpty = false := by
      rw [List.isEmpty_eq_false_iff]
      exact List.ne_nil_of_mem (List.mem_reverse.1 (List.mem_of_find?_eq_some hsupplier))
    have hvars : (fallback ctx d actions).keywords.get? "vars" =
        some (.map (.ofList ((plainProperties d).map fun p => (p.name, p.value.task)))) := by
      simp [fallback, hsome]
    rw [MappedResource.at?, hvars]
    show Fields.get? _ name = _
    rw [Fields.get?_ofList, ← List.map_reverse, lookup?_map]
    exact congrArg (Option.map _) hsupplier
  | dropped => exact absurd rfl hkept

end Routes

/-! ### Dropped properties -/

section Dropped

variable (ctx : MappingContext) (d : Declaration) (actions : List Text)

/-- A finding about a given property is that it is not declared, or declared otherwise. -/
theorem propertyFinding?_cases {definition : ResourceDefinition} {p : Property} {finding : Finding}
    (h : propertyFinding? definition d p = some finding) :
    finding = .unknownProperty p.name d.type ∨
      ∃ expected, finding = .typeMismatch p.name d.type expected := by
  unfold propertyFinding? at h
  split at h
  · exact .inl (Option.some.inj h).symm
  · obtain ⟨expected, -, hmismatch⟩ := Option.bind_eq_some_iff.1 h
    split_ifs at hmismatch
    exact .inr ⟨expected, (Option.some.inj hmismatch).symm⟩

theorem code_ne_dropped_custom {definition : ResourceDefinition} {x : Diagnostic}
    (h : x ∈ (custom ctx definition d actions).diagnostics) : x.code ≠ .mappingDroppedProperty := by
  rcases List.mem_append.1 h with h | h
  · rcases List.mem_append.1 h with h | h
    · obtain ⟨a, -, rfl⟩ := List.mem_map.1 h
      exact nofun
    · obtain ⟨p, -, hp⟩ := List.mem_filterMap.1 h
      obtain ⟨finding, hfinding, rfl⟩ := Option.map_eq_some_iff.1 hp
      obtain rfl | ⟨expected, rfl⟩ := propertyFinding?_cases d hfinding <;> exact nofun
  · obtain ⟨s, -, rfl⟩ := List.mem_map.1 h
    exact nofun

theorem droppedWarnings_builtin {mapping : ResourceMapping}
    (htable : ctx.table.get? d.type = some mapping) :
    (builtin ctx.source mapping d actions).diagnostics.filter (·.code == .mappingDroppedProperty) =
      (d.properties.filter fun p => ctx.destination d.type p.name == .dropped).map fun p =>
        warning ctx.source d p.span
          (.droppedProperty p.name d.type (builtin ctx.source mapping d actions).module) := by
  have hdropped : (plainProperties d).filter (fun p => (mapping.properties.get? p.name).isNone) =
      d.properties.filter fun p => ctx.destination d.type p.name == .dropped := by
    unfold plainProperties
    rw [List.filter_filter]
    congr 1
    funext p
    rw [MappingContext.destination]
    cases keywordFor? d.type p.name with
    | some keyword => exact Bool.eq_iff_iff.2 (by simp)
    | none =>
      rw [plainDestination_builtin htable]
      cases mapping.properties.get? p.name <;> exact Bool.eq_iff_iff.2 (by simp)
  rw [← hdropped]
  dsimp only [builtin]
  rw [List.filter_append, List.filter_map, List.filter_map]
  simp [Function.comp_def, Diagnostic.code, warning, Finding.code]

/-- The warnings about dropped properties are one for each property that goes nowhere, in order. -/
theorem droppedWarnings_map {m : MappedResource} (hmap : d.map ctx actions = .ok m) :
    m.diagnostics.filter (·.code == .mappingDroppedProperty) =
      (d.properties.filter fun p => ctx.destination d.type p.name == .dropped).map fun p =>
        warning ctx.source d p.span (.droppedProperty p.name d.type m.module) := by
  rcases Declaration.map_cases hmap with ⟨mapping, htable, rfl⟩ | ⟨htable, hrest⟩
  · exact droppedWarnings_builtin ctx d actions htable
  · have hkept : (d.properties.filter fun p => ctx.destination d.type p.name == .dropped) = [] := by
      rw [List.filter_eq_nil_iff]
      intro p _
      rw [MappingContext.destination]
      cases keywordFor? d.type p.name with
      | some keyword => simp
      | none =>
        rw [MappingContext.plainDestination, htable]
        cases ctx.definitions.contains d.type <;> simp
    rw [hkept]
    rcases hrest with ⟨definition, -, rfl⟩ | ⟨-, rfl⟩
    · exact List.filter_eq_nil_iff.2 fun x hx => by simpa using code_ne_dropped_custom ctx d actions hx
    · rfl

end Dropped

/-! ### All properties -/

theorem ResourceTable.isSome_get?_ofLayers {type : Text} (h : (builtin.get? type).isSome = true)
    (layers : List ResourceTable) : ((ofLayers layers).get? type).isSome = true := by
  unfold ofLayers
  induction layers using List.reverseRecOn with
  | nil => rwa [List.foldl_nil]
  | append_singleton rest layer ih =>
    rw [List.foldl_concat, Fields.overlay, Fields.get?_setAll, Option.isSome_or, ih, Bool.or_true]

/-- Where every property of a declaration goes that is mapped, with the last that goes somewhere giving the
value there, whatever the name, the actions and the definition are; the definition may only hide the
output. The properties that go nowhere have one warning each, at their places and in order. One parameter
is left out, which no assignment makes in an ordinary record. -/
theorem Declaration.properties_accounted {layers : List ResourceTable} {ctx : MappingContext}
    (htable : ctx.table = ResourceTable.ofLayers layers) (d : Declaration) (actions : List Text) :
    ((∃ m, d.map ctx actions = .ok m) ↔
      ∀ t : Inherited, t.name = d.type → (ctx.table.get? d.type).isSome = true ∧
        ∀ p ∈ d.properties, t.refuses p.name = false) ∧
    ∀ m, d.map ctx actions = .ok m →
      (∀ p ∈ d.properties, ∃ destination, GoesTo ctx d.type p.name destination ∧
        (destination = .dropped ∨ destination = .parameter Inherited.prototype.name ∨
          ∃ last, Supplies ctx d destination last ∧
            m.at? destination = some (ctx.emitted d destination last))) ∧
      m.diagnostics.filter (·.code == .mappingDroppedProperty) =
        (d.properties.filter fun p => decide (GoesTo ctx d.type p.name .dropped)).map fun p =>
          warning ctx.source d p.span (.droppedProperty p.name d.type m.module) := by
  refine ⟨Declaration.exists_map_eq_ok_iff, fun m hmap => ⟨fun p hp => ⟨_, goesTo_iff.2 rfl, ?_⟩, ?_⟩⟩
  · refine or_iff_not_imp_left.2 fun hkept => or_iff_not_imp_left.2 fun hfield => ?_
    have hsome : (ctx.supplier? d (ctx.destination d.type p.name)).isSome = true := by
      rw [MappingContext.supplier?, List.find?_isSome]
      exact ⟨p, List.mem_reverse.2 hp, by simp⟩
    obtain ⟨last, hlast⟩ := Option.isSome_iff_exists.1 hsome
    refine ⟨last, supplies_iff.2 hlast, ?_⟩
    rcases Declaration.map_cases hmap with ⟨mapping, hmapping, rfl⟩ | ⟨hmapping, ⟨definition, hdefinition, rfl⟩ |
      ⟨hdefinition, rfl⟩⟩
    · exact at?_builtin hmapping hlast hkept hfield actions
    · exact at?_custom hmapping hdefinition hlast hkept actions
    · have htemplate : d.type ≠ ("template" : Text) := by
        intro htype
        have hbuiltin : ((ResourceTable.ofLayers layers).get? "template").isSome = true :=
          ResourceTable.isSome_get?_ofLayers (by decide +kernel) layers
        rw [← htable, ← htype, hmapping] at hbuiltin
        cases hbuiltin
      exact at?_fallback htemplate hmapping hdefinition hlast hkept actions
  · have hdropped : (fun p : Property => decide (GoesTo ctx d.type p.name .dropped)) =
        fun p => ctx.destination d.type p.name == .dropped :=
      funext fun p => Bool.eq_iff_iff.2 (by simp [goesTo_iff])
    rw [hdropped]
    exact droppedWarnings_map ctx d actions hmap

/-- The built-in types by themselves. -/
def builtinContext : MappingContext := ⟨[], .ofLayers [], .empty, "local.cookbook", "command"⟩

/-- A declaration with a name and properties alone. -/
def Declaration.plain (type : Text) (name : Value) (properties : List Property) : Declaration :=
  { type, name, actions := [], properties, guards := [], notifications := [], context := []
    inLoop := false, malformed := false, usesSearch := false, span := ⟨⟨1, 1, 0⟩, ⟨1, 1, 0⟩⟩
    source := [] }

/-- A package with a property that its module has no parameter for, named like a member. -/
def misnamed : Declaration :=
  .plain "package" (.ofText "x") [⟨"constructor", .ofText "y", ⟨⟨2, 3, 17⟩, ⟨2, 18, 32⟩⟩⟩]

/-- The property becomes a keyword under the text of the member, and no warning says that it was
dropped. -/
theorem constructor_kept_as_keyword :
    builtinContext.table = .ofLayers [] ∧ ∃ m, misnamed.map builtinContext [] = .ok m ∧
      m.keywords.get? "function Object() \x7b [native code] \x7d" = some (.ofText "y") ∧
      m.diagnostics.filter (·.code == .mappingDroppedProperty) = [] := by
  obtain ⟨hmapped, haccounted⟩ :=
    @Declaration.properties_accounted [] builtinContext rfl misnamed []
  have hordinary : ∀ t : Inherited, t.name ≠ misnamed.type := by
    intro t
    cases t <;> decide
  have hgoes : GoesTo builtinContext misnamed.type Inherited.object.name (.keyword Inherited.object.text) :=
    .member (.shared .object fun t ht => absurd ht (hordinary t))
  obtain ⟨m, hmap⟩ := hmapped.2 fun t ht => absurd ht (hordinary t)
  obtain ⟨hplaced, hdropped⟩ := haccounted m hmap
  refine ⟨rfl, m, hmap, ?_, ?_⟩
  · obtain ⟨destination, hdestination, hplace⟩ := hplaced _ List.mem_cons_self
    obtain rfl : .keyword Inherited.object.text = destination :=
      (goesTo_iff.1 hgoes).symm.trans (goesTo_iff.1 hdestination)
    obtain ⟨last, hlast, hvalue⟩ := (hplace.resolve_left nofun).resolve_left nofun
    obtain ⟨before, after, hproperties, -⟩ := hlast.last
    obtain rfl : last = ⟨"constructor", .ofText "y", ⟨⟨2, 3, 17⟩, ⟨2, 18, 32⟩⟩⟩ := by
      have hmem : last ∈ misnamed.properties := by simp [hproperties]
      simpa [misnamed, Declaration.plain] using hmem
    exact hvalue
  · rw [hdropped]
    have hkept : (misnamed.properties.filter fun p =>
        decide (GoesTo builtinContext misnamed.type p.name .dropped)) = [] := by
      rw [List.filter_eq_nil_iff]
      intro p hp hdrop
      obtain rfl : p = ⟨"constructor", .ofText "y", ⟨⟨2, 3, 17⟩, ⟨2, 18, 32⟩⟩⟩ := by
        simpa [misnamed, Declaration.plain] using hp
      cases (goesTo_iff.1 hgoes).symm.trans (goesTo_iff.1 (of_decide_eq_true hdrop))
    rw [hkept]
    rfl

end Cookbook
