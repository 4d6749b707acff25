import Cookbook.Proofs.FirstSeen
import Cookbook.Proofs.Value.Reporting
import Cookbook.Schema.Definition

/-!
Definitions of custom resources are well formed. Properties, actions and names may be declared in any order and
at any depth of classes and modules, with anything in between; each line of a definition adds to what has been
read, and what is added depends on what is there only through the marks and the names that are there already.

* `DefinitionLine` is what a command of a definition declares, `definitionCommands` lists the commands that are
  read;
* `DefinitionReader.Takes` is what one command adds, `DefinitionReader.takes_command` proves it;
* `MarksFirst` says that of the declared properties the first that asks for it is marked;
* `DefinitionReader.After` is what has been read after some commands, `DefinitionReader.after_run` proves it;
* `definition_well_formed` is the result for whole files.
-/

namespace Cookbook

/-! ### Lines of a definition -/

/-- A property as it is declared: its name, whether it asks to be filled by the name of a declaration, and where
it is declared. -/
structure DeclaredProperty where
  name : Text
  asks : Bool
  extent : Extent

/-- What a command of a definition declares. -/
inductive DefinitionLine where
  | property (d : DeclaredProperty)
  | actions (names : List Text)
  | defaultAction (name : Text)
  | typeName (name : Text)
  | other

namespace DefinitionLine

def property? : DefinitionLine → Option DeclaredProperty
  | property d => some d
  | _ => none

/-- The actions that a line declares; a default action is one. -/
def actionNames : DefinitionLine → List Text
  | actions names => names
  | defaultAction name => [name]
  | _ => []

def default? : DefinitionLine → Option Text
  | defaultAction name => some name
  | _ => none

/-- The name under which a line provides the resource. -/
def typeNames : DefinitionLine → List Text
  | typeName name => [name]
  | _ => []

theorem mem_actionNames_of_default? {line : DefinitionLine} {name : Text} (h : line.default? = some name) :
    name ∈ line.actionNames := by
  cases line with
  | defaultAction name' => exact Option.some.inj h ▸ List.mem_singleton_self _
  | property _ => exact absurd h (by simp [default?])
  | actions _ => exact absurd h (by simp [default?])
  | typeName _ => exact absurd h (by simp [default?])
  | other => exact absurd h (by simp [default?])

end DefinitionLine

/-- Whether a flag with this value is set: it is true, or lists the actions it is set for. -/
def Value.setsFlag : Value → Bool
  | .literal (.bool b) => b
  | .list _ => true
  | _ => false

namespace Command

def positionals (c : Command) : List (List Token) := ((Call.ofRun? c.head).map Call.positional).getD []

def keywords (c : Command) : List (Text × List Token) := ((Call.ofRun? c.head).map Call.keywordArgs).getD []

variable (ctx : NormalizeContext)

/-- The flags by which a property asks to be filled by the name of a declaration. -/
def nameFlags (c : Command) : List (List Token) :=
  c.keywords.filterMap fun (key, run) =>
    if key = ("name_property" : Text) ∨ key = ("name_attribute" : Text) then some run else none

/-- The property that a command declares, if its first argument is a name. -/
def declaredProperty? (c : Command) : Option DeclaredProperty := do
  let run ← c.positionals.head?
  let name ← (ctx.normalize run).value.literalText?
  return ⟨name, c.nameFlags.any fun run => (ctx.normalize run).value.setsFlag, c.extent⟩

def givenNames (c : Command) : List Text :=
  c.positionals.flatMap fun run => DefinitionReader.namesIn (ctx.normalize run).value

def definitionLine (c : Command) : DefinitionLine :=
  match c.head.head?.bind (·.valueOf? .ident) with
  | none => .other
  | some word =>
    if word = ("property" : Text) ∨ word = ("attribute" : Text) then
      ((c.declaredProperty? ctx).map .property).getD .other
    else if word = ("actions" : Text) then .actions (c.givenNames ctx)
    else if word = ("action" : Text) then
      if c.block.isSome then .actions (c.givenNames ctx).head?.toList else .other
    else if word = ("default_action" : Text) then ((c.givenNames ctx).head?.map .defaultAction).getD .other
    else if word = ("resource_name" : Text) ∨ word = ("provides" : Text) then
      ((c.givenNames ctx).head?.map .typeName).getD .other
    else .other

end Command

/-! ### What one command adds -/

namespace DefinitionReader

def duplicates (r : DefinitionReader) : List Diagnostic :=
  r.diagnostics.filter (·.code == .schemaDuplicateNameProperty)

def hasNameProperty (r : DefinitionReader) : Bool := r.properties.any (·.isNameProperty)

/-- The readers differ in warnings about values only. -/
structure Same (r r' : DefinitionReader) : Prop where
  typeNames : r'.typeNames = r.typeNames
  properties : r'.properties = r.properties
  actions : r'.actions = r.actions
  defaultAction : r'.defaultAction = r.defaultAction
  duplicates : r'.duplicates = r.duplicates

theorem Same.refl (r : DefinitionReader) : r.Same r := ⟨rfl, rfl, rfl, rfl, rfl⟩

theorem Same.trans {r r' r'' : DefinitionReader} (h : r.Same r') (h' : r'.Same r'') : r.Same r'' :=
  ⟨h'.typeNames.trans h.typeNames, h'.properties.trans h.properties, h'.actions.trans h.actions,
    h'.defaultAction.trans h.defaultAction, h'.duplicates.trans h.duplicates⟩

section Reading

variable (source : Text) (p : Program)

/-- A definition is read with no names in force. -/
def ctx : NormalizeContext := ⟨source, p.lines, .empty⟩

theorem value_spec (run : List Token) (r : DefinitionReader) :
    (r.value source p run).1 = ((ctx source p).normalize run).value ∧ r.Same (r.value source p run).2 := by
  refine ⟨rfl, rfl, rfl, rfl, rfl, ?_⟩
  unfold duplicates value
  rw [List.filter_append, NormalizeContext.filter_code_normalize _ run (by decide), List.append_nil]

theorem names_spec (runs : List (List Token)) (r : DefinitionReader) :
    (names source p runs r).1 = (runs.flatMap fun run => namesIn ((ctx source p).normalize run).value) ∧
      r.Same (names source p runs r).2 := by
  induction runs generalizing r with
  | nil => exact ⟨rfl, .refl r⟩
  | cons run rest ih =>
    obtain ⟨hvalue, hsame⟩ := value_spec source p run r
    obtain ⟨hnames, hsame'⟩ := ih (r.value source p run).2
    refine ⟨?_, hsame.trans hsame'⟩
    rw [List.flatMap_cons, ← hnames, ← hvalue]
    rfl

theorem isSet_spec (run : Option (List Token)) (r : DefinitionReader) :
    (isSet source p run r).1 = run.any (fun run => ((ctx source p).normalize run).value.setsFlag) ∧
      r.Same (isSet source p run r).2 := by
  cases run with
  | none => exact ⟨rfl, .refl r⟩
  | some run =>
    obtain ⟨hvalue, hsame⟩ := value_spec source p run r
    have heq : isSet source p (some run) r =
        ((r.value source p run).1.setsFlag, (r.value source p run).2) := by
      unfold isSet
      dsimp only
      rcases r.value source p run with ⟨v, r'⟩
      cases v with
      | literal scalar =>
        cases scalar with
        | bool b => cases b <;> rfl
        | _ => rfl
      | _ => rfl
    rw [heq, Option.any_some, hvalue]
    exact ⟨rfl, hsame⟩

theorem anySet_spec (flags : List (List Token)) (r : DefinitionReader) :
    (anySet source p flags r).1 = flags.any (fun run => ((ctx source p).normalize run).value.setsFlag) ∧
      r.Same (anySet source p flags r).2 := by
  induction flags generalizing r with
  | nil => exact ⟨rfl, .refl r⟩
  | cons run rest ih =>
    obtain ⟨hset, hsame⟩ := isSet_spec source p (some run) r
    rw [Option.any_some] at hset
    rw [List.any_cons, ← hset]
    unfold anySet
    generalize isSet source p (some run) r = pair at hsame
    obtain ⟨set, r'⟩ := pair
    cases set with
    | true => exact ⟨rfl, hsame⟩
    | false => exact ⟨(ih r').1, hsame.trans (ih r').2⟩

end Reading

/-- The reader takes a line: each name that is new, a default action if there was none, and a property, which is
marked if it asks for it and none is marked, and reported if one is. -/
structure Takes (source : Text) (p : Program) (line : DefinitionLine) (r r' : DefinitionReader) : Prop where
  typeNames : r'.typeNames = line.typeNames.foldl addNew r.typeNames
  actions : r'.actions = line.actionNames.foldl addNew r.actions
  defaultAction : r'.defaultAction = r.defaultAction.or line.default?
  properties : ∃ more, r'.properties = r.properties ++ more ∧
    more.map (fun q => (q.name, q.isNameProperty)) =
      line.property?.toList.map fun d => (d.name, d.asks && !r.hasNameProperty)
  duplicates : r'.duplicates = r.duplicates ++
    (line.property?.toList.filter fun d => d.asks && r.hasNameProperty).map fun d =>
      ⟨.duplicateNameProperty d.name, source, p.spanOf d.extent, none⟩

section Command

variable (source : Text) (p : Program)

theorem Same.takes_other {r r' : DefinitionReader} (h : r.Same r') : r.Takes source p .other r' where
  typeNames := h.typeNames
  actions := h.actions
  defaultAction := h.defaultAction.trans Option.or_none.symm
  properties := ⟨[], h.properties.trans (List.append_nil _).symm, rfl⟩
  duplicates := h.duplicates.trans (List.append_nil _).symm

theorem duplicates_report (r : DefinitionReader) (span : Span) {finding : Finding}
    (h : finding.code ≠ .schemaDuplicateNameProperty) :
    (r.report source span finding).duplicates = r.duplicates := by
  unfold duplicates report
  rw [List.filter_append, List.filter_cons_of_neg (by simpa [Diagnostic.code] using h), List.filter_nil,
    List.append_nil]

theorem Same.report {r r' : DefinitionReader} (h : r.Same r') (span : Span) {finding : Finding}
    (hcode : finding.code ≠ .schemaDuplicateNameProperty) : r.Same (r'.report source span finding) where
  typeNames := h.typeNames
  properties := h.properties
  actions := h.actions
  defaultAction := h.defaultAction
  duplicates := (duplicates_report source r' span hcode).trans h.duplicates

/-- A property that is declared is taken, whatever else is read of it. -/
theorem takes_declared {r r' : DefinitionReader} (d : DeclaredProperty)
    (h : (if d.asks && r.hasNameProperty
      then r.report source (p.spanOf d.extent) (.duplicateNameProperty d.name) else r).Same r')
    {q : PropertySchema} (hname : q.name = d.name)
    (hmark : q.isNameProperty = (d.asks && !(d.asks && r.hasNameProperty))) :
    r.Takes source p (.property d) { r' with properties := r'.properties ++ [q] } := by
  cases hsecond : (d.asks && r.hasNameProperty) with
  | true =>
    rw [hsecond, if_pos rfl] at h
    refine ⟨h.typeNames, h.actions, h.defaultAction.trans Option.or_none.symm,
      ⟨[q], congrArg (· ++ [q]) h.properties, ?_⟩, ?_⟩
    · rw [Bool.and_eq_true] at hsecond
      simp [DefinitionLine.property?, hname, hmark, hsecond]
    · refine Eq.trans (b := r'.duplicates) rfl (h.duplicates.trans ?_)
      rw [Bool.and_eq_true] at hsecond
      simp [DefinitionLine.property?, duplicates, DefinitionReader.report, Diagnostic.code, Finding.code, hsecond]
  | false =>
    rw [hsecond, if_neg Bool.false_ne_true] at h
    refine ⟨h.typeNames, h.actions, h.defaultAction.trans Option.or_none.symm,
      ⟨[q], congrArg (· ++ [q]) h.properties, ?_⟩, ?_⟩
    · have hmark : q.isNameProperty = (d.asks && !r.hasNameProperty) := by
        rw [hmark]
        revert hsecond
        cases d.asks <;> simp
      simp [DefinitionLine.property?, hname, hmark]
    · refine Eq.trans (b := r'.duplicates) rfl (h.duplicates.trans ?_)
      simp [DefinitionLine.property?, hsecond]

/-- The value of an argument that may be missing, with its warnings noted. -/
def value? (run : Option (List Token)) (r : DefinitionReader) : Option Value × DefinitionReader :=
  match run with
  | some run => (some (r.value source p run).1, (r.value source p run).2)
  | none => (none, r)

theorem same_value? (run : Option (List Token)) (r : DefinitionReader) : r.Same (value? source p run r).2 := by
  cases run with
  | none => exact .refl r
  | some run => exact (value_spec source p run r).2

def namedProperty (legacy : Bool) (c : Command) (name : Text) (r : DefinitionReader) : DefinitionReader :=
  let typeRun := if legacy then lookup? "kind_of" c.keywords
    else (c.positionals[1]?).or (lookup? "kind_of" c.keywords)
  let asks := anySet source p c.nameFlags r
  let isSecond := asks.1 && asks.2.hasNameProperty
  let reported := if isSecond then asks.2.report source (p.spanOf c.extent) (.duplicateNameProperty name)
    else asks.2
  let default := value? source p (lookup? "default" c.keywords) reported
  let required := isSet source p (lookup? "required" c.keywords) default.2
  let sensitive := isSet source p (lookup? "sensitive" c.keywords) required.2
  { sensitive.2 with
    properties := sensitive.2.properties ++ [⟨name, (typeRun.filter (!·.isEmpty)).map p.sourceOf,
      asks.1 && !isSecond, default.1, required.1, sensitive.1⟩] }

theorem property_of_none (legacy : Bool) {c : Command} (r : DefinitionReader)
    (hfirst : c.positionals.head? = none) : property source p legacy c r =
      r.report source (p.spanOf c.extent) (.namelessProperty (p.sourceOf c.head)) := by
  unfold Command.positionals at hfirst
  unfold property
  simp only [hfirst]

theorem property_of_nameless (legacy : Bool) {c : Command} (r : DefinitionReader) {run : List Token}
    (hfirst : c.positionals.head? = some run) (hname : (r.value source p run).1.literalText? = none) :
    property source p legacy c r =
      (r.value source p run).2.report source (p.spanOf c.extent) (.namelessProperty (p.sourceOf c.head)) := by
  unfold Command.positionals at hfirst
  unfold property
  simp only [hfirst, hname]

theorem property_of_name (legacy : Bool) {c : Command} (r : DefinitionReader) {run : List Token} {name : Text}
    (hfirst : c.positionals.head? = some run) (hname : (r.value source p run).1.literalText? = some name) :
    property source p legacy c r = namedProperty source p legacy c name (r.value source p run).2 := by
  unfold Command.positionals at hfirst
  unfold property namedProperty
  simp only [hfirst, hname]
  rfl

theorem Same.takes {r r₁ r' : DefinitionReader} {line : DefinitionLine} (h : r.Same r₁)
    (htakes : r₁.Takes source p line r') : r.Takes source p line r' := by
  have hmarked : r₁.hasNameProperty = r.hasNameProperty := by
    unfold hasNameProperty
    rw [h.properties]
  have hproperties := htakes.properties
  have hduplicates := htakes.duplicates
  rw [hmarked, h.properties] at hproperties
  rw [hmarked, h.duplicates] at hduplicates
  exact ⟨h.typeNames ▸ htakes.typeNames, h.actions ▸ htakes.actions, h.defaultAction ▸ htakes.defaultAction,
    hproperties, hduplicates⟩

theorem takes_named (legacy : Bool) (c : Command) (name : Text) (r : DefinitionReader) :
    r.Takes source p
      (.property ⟨name, c.nameFlags.any fun run => ((ctx source p).normalize run).value.setsFlag, c.extent⟩)
      (namedProperty source p legacy c name r) := by
  obtain ⟨hasks, hsame⟩ := anySet_spec source p c.nameFlags r
  rw [← hasks]
  refine hsame.takes source p (takes_declared source p ⟨name, _, c.extent⟩ ?_ rfl rfl)
  exact (same_value? source p _ _).trans ((isSet_spec source p _ _).2.trans (isSet_spec source p _ _).2)

theorem takes_property (legacy : Bool) (c : Command) (r : DefinitionReader) :
    r.Takes source p (((c.declaredProperty? (ctx source p)).map .property).getD .other)
      (property source p legacy c r) := by
  unfold Command.declaredProperty?
  cases hfirst : c.positionals.head? with
  | none =>
    rw [property_of_none source p legacy r hfirst]
    exact ((Same.refl r).report source _ (by nofun)).takes_other source p
  | some run =>
    obtain ⟨hvalue, hsame⟩ := value_spec source p run r
    rw [Option.bind_eq_bind, Option.bind_some, ← hvalue]
    cases hname : (r.value source p run).1.literalText? with
    | none =>
      rw [property_of_nameless source p legacy r hfirst hname]
      exact (hsame.report source _ (by nofun)).takes_other source p
    | some name =>
      rw [property_of_name source p legacy r hfirst hname]
      exact hsame.takes source p (takes_named source p legacy c name _)

theorem Same.takes_actions {r r' : DefinitionReader} (h : r.Same r') (names : List Text) :
    r.Takes source p (.actions names) { r' with actions := names.foldl addNew r'.actions } where
  typeNames := h.typeNames
  actions := congrArg (names.foldl addNew) h.actions
  defaultAction := h.defaultAction.trans Option.or_none.symm
  properties := ⟨[], h.properties.trans (List.append_nil _).symm, rfl⟩
  duplicates := h.duplicates.trans (List.append_nil _).symm

theorem Same.takes_default {r r' : DefinitionReader} (h : r.Same r') (name : Text) :
    r.Takes source p (.defaultAction name)
      { r' with defaultAction := r'.defaultAction.or (some name), actions := addNew r'.actions name } where
  typeNames := h.typeNames
  actions := congrArg (addNew · name) h.actions
  defaultAction := congrArg (·.or (some name)) h.defaultAction
  properties := ⟨[], h.properties.trans (List.append_nil _).symm, rfl⟩
  duplicates := h.duplicates.trans (List.append_nil _).symm

theorem Same.takes_typeName {r r' : DefinitionReader} (h : r.Same r') (name : Text) :
    r.Takes source p (.typeName name) { r' with typeNames := addNew r'.typeNames name } where
  typeNames := congrArg (addNew · name) h.typeNames
  actions := h.actions
  defaultAction := h.defaultAction.trans Option.or_none.symm
  properties := ⟨[], h.properties.trans (List.append_nil _).symm, rfl⟩
  duplicates := h.duplicates.trans (List.append_nil _).symm

/-- Every command adds what its line declares. -/
theorem takes_command (c : Command) (r : DefinitionReader) :
    r.Takes source p (c.definitionLine (ctx source p)) (r.command source p c) := by
  unfold command Command.definitionLine
  cases c.head.head?.bind (·.valueOf? .ident) with
  | none => exact (Same.refl r).takes_other source p
  | some word =>
    obtain ⟨hnames, hsame⟩ := names_spec source p c.positionals r
    have hgiven : c.givenNames (ctx source p) = (names source p c.positionals r).1 := hnames.symm
    dsimp only
    rw [hgiven]
    -- the words are tried one after another, and only these two read arguments of their own
    by_cases hproperty : word = ("property" : Text)
    · rw [if_pos hproperty, if_pos (.inl hproperty)]
      exact takes_property source p false c r
    rw [if_neg hproperty]
    by_cases hattribute : word = ("attribute" : Text)
    · rw [if_pos hattribute, if_pos (.inr hattribute)]
      exact takes_property source p true c r
    rw [if_neg hattribute, if_neg (not_or.2 ⟨hproperty, hattribute⟩)]
    unfold Command.positionals at hsame ⊢
    generalize names source p _ r = read at hsame ⊢
    obtain ⟨given, r'⟩ := read
    dsimp only at hsame ⊢
    split
    · exact hsame.takes_actions source p given
    split
    · cases given with
      | nil =>
        split
        · exact hsame.takes_actions source p []
        · exact hsame.takes_other source p
      | cons name more =>
        dsimp only [List.head?_cons, Option.toList_some]
        split
        · exact hsame.takes_actions source p [name]
        · exact hsame.takes_other source p
    split
    · cases given with
      | nil => exact hsame.takes_other source p
      | cons name more => exact hsame.takes_default source p name
    split
    · cases given with
      | nil => exact hsame.takes_other source p
      | cons name more => exact hsame.takes_typeName source p name
    · exact (Same.refl r).takes_other source p

end Command

end DefinitionReader

/-! ### Names and marks -/

theorem addNew_eraseDups (names : List Text) (name : Text) :
    addNew names.eraseDups name = (names ++ [name]).eraseDups := by
  unfold addNew
  by_cases h : name ∈ names
  · rw [if_pos (by simpa using h), eraseDups_concat_of_mem h]
  · rw [if_neg (by simpa using h), eraseDups_concat_of_not_mem h]

/-- Adding names one by one keeps each where it is first seen. -/
theorem foldl_addNew_eraseDups (names more : List Text) :
    more.foldl addNew names.eraseDups = (names ++ more).eraseDups := by
  induction more generalizing names with
  | nil => rw [List.foldl_nil, List.append_nil]
  | cons name more ih =>
    rw [List.foldl_cons, addNew_eraseDups, ih, List.append_assoc, List.singleton_append]

/-- The properties are the declared ones, in order, and marked is the first that asks for it: one that asks, with
none before it that does. -/
structure MarksFirst (declared : List DeclaredProperty) (properties : List PropertySchema) : Prop where
  names : properties.map (·.name) = declared.map (·.name)
  marked : ∀ i d q, declared[i]? = some d → properties[i]? = some q →
    q.isNameProperty = (d.asks && !(declared.take i).any (·.asks))
  any : properties.any (·.isNameProperty) = declared.any (·.asks)

namespace MarksFirst

variable {declared : List DeclaredProperty} {properties : List PropertySchema}

theorem nil : MarksFirst [] [] where
  names := rfl
  marked i d q hd := absurd hd (by simp)
  any := rfl

theorem length_eq (h : MarksFirst declared properties) : properties.length = declared.length := by
  simpa using congrArg List.length h.names

/-- One more property is marked if it asks for it and none is marked. -/
theorem concat (h : MarksFirst declared properties) {d : DeclaredProperty} {q : PropertySchema}
    (hname : q.name = d.name)
    (hmark : q.isNameProperty = (d.asks && !properties.any (·.isNameProperty))) :
    MarksFirst (declared ++ [d]) (properties ++ [q]) where
  names := by rw [List.map_append, List.map_append, h.names, List.map_singleton, List.map_singleton, hname]
  marked := by
    intro i d' q' hd' hq'
    rcases Nat.lt_or_ge i declared.length with hi | hi
    · rw [List.getElem?_append_left hi] at hd'
      rw [List.getElem?_append_left (h.length_eq ▸ hi)] at hq'
      rw [List.take_append_of_le_length hi.le]
      exact h.marked i d' q' hd' hq'
    · have hlast : i = declared.length := by
        have hlt := (List.getElem?_eq_some_iff.1 hd').1
        rw [List.length_append, List.length_singleton] at hlt
        omega
      subst hlast
      rw [List.getElem?_concat_length] at hd'
      rw [← h.length_eq, List.getElem?_concat_length] at hq'
      obtain rfl := Option.some.inj hd'
      obtain rfl := Option.some.inj hq'
      rw [List.take_left, ← h.any, hmark]
  any := by
    rw [List.any_append, List.any_append, h.any, List.any_cons, List.any_cons, hmark, h.any]
    cases declared.any (·.asks) <;> simp

theorem unique (h : MarksFirst declared properties) {i j : Nat} {q q' : PropertySchema}
    (hq : properties[i]? = some q) (hq' : properties[j]? = some q') (hmarked : q.isNameProperty = true)
    (hmarked' : q'.isNameProperty = true) : i = j := by
  -- what is marked asks for it, and nothing after what asks is marked
  have hbefore : ∀ {i j : Nat} {q q' : PropertySchema}, properties[i]? = some q → properties[j]? = some q' →
      q.isNameProperty = true → q'.isNameProperty = true → ¬ i < j := by
    intro i j q q' hq hq' hmarked hmarked' hlt
    obtain ⟨d, hd⟩ : ∃ d, declared[i]? = some d := by
      have hi := (List.getElem?_eq_some_iff.1 hq).1
      exact ⟨_, List.getElem?_eq_getElem (h.length_eq ▸ hi)⟩
    obtain ⟨d', hd'⟩ : ∃ d', declared[j]? = some d' := by
      have hj := (List.getElem?_eq_some_iff.1 hq').1
      exact ⟨_, List.getElem?_eq_getElem (h.length_eq ▸ hj)⟩
    rw [h.marked i d q hd hq, Bool.and_eq_true] at hmarked
    rw [h.marked j d' q' hd' hq', Bool.and_eq_true, Bool.not_eq_true', List.any_eq_false] at hmarked'
    refine hmarked'.2 d (List.mem_of_getElem? (i := i) ?_) hmarked.1
    rw [List.getElem?_take_of_lt hlt]
    exact hd
  rcases Nat.lt_trichotomy i j with hlt | heq | hlt
  · exact absurd hlt (hbefore hq hq' hmarked hmarked')
  · exact heq
  · exact absurd hlt (hbefore hq' hq hmarked' hmarked)

end MarksFirst

/-! ### What all commands add -/

mutual

/-- The commands of a definition in a statement: those in the bodies of classes and modules count. -/
def Statement.definitionCommands : Statement → List Command
  | .command c => [c]
  | .conditional _ => []
  | .compound ⟨_, _, body, opener, _⟩ =>
    if opener.text = ("class" : Text) ∨ opener.text = ("module" : Text) then definitionCommands body else []

def definitionCommands : List Statement → List Command
  | [] => []
  | s :: rest => s.definitionCommands ++ definitionCommands rest

end

section Reading

variable (source : Text) (p : Program)

mutual

theorem Statement.readDefinition_eq : ∀ (s : Statement) (r : DefinitionReader),
    s.readDefinition source p r = s.definitionCommands.foldl (fun r c => r.command source p c) r
  | .command c, r => rfl
  | .conditional _, r => by
    rw [Statement.readDefinition, Statement.definitionCommands]
    rfl
  | .compound ⟨_, _, body, opener, _⟩, r => by
    rw [Statement.readDefinition, Statement.definitionCommands]
    split
    · exact readDefinitionList_eq body r
    · rfl

/-- Reading a definition is reading its commands. -/
theorem readDefinitionList_eq : ∀ (body : List Statement) (r : DefinitionReader),
    readDefinitionList source p body r = (definitionCommands body).foldl (fun r c => r.command source p c) r
  | [], r => rfl
  | s :: rest, r => by
    rw [readDefinitionList, definitionCommands, List.foldl_append, s.readDefinition_eq, readDefinitionList_eq rest]

end

/-- The warnings about all properties after the first that ask to be filled by the name of a declaration. -/
def duplicateWarnings (declared : List DeclaredProperty) : List Diagnostic :=
  ((declared.filter (·.asks)).drop 1).map fun d =>
    ⟨.duplicateNameProperty d.name, source, p.spanOf d.extent, none⟩

theorem duplicateWarnings_concat (declared : List DeclaredProperty) (d : DeclaredProperty) :
    duplicateWarnings source p (declared ++ [d]) = duplicateWarnings source p declared ++
      (if d.asks && declared.any (·.asks) then
        [⟨.duplicateNameProperty d.name, source, p.spanOf d.extent, none⟩] else []) := by
  unfold duplicateWarnings
  have hany : declared.any (·.asks) = !(declared.filter (·.asks)).isEmpty := by
    rw [Bool.eq_iff_iff]
    simp
  rw [List.filter_append, hany]
  cases hasks : d.asks with
  | false => simp [hasks]
  | true =>
    cases declared.filter (·.asks) with
    | nil => simp [hasks]
    | cons first more => simp [hasks]

namespace DefinitionReader

/-- What has been read of a definition after some lines. -/
structure After (lines : List DefinitionLine) (r : DefinitionReader) : Prop where
  typeNames : r.typeNames = (lines.flatMap DefinitionLine.typeNames).eraseDups
  actions : r.actions = (lines.flatMap DefinitionLine.actionNames).eraseDups
  defaultAction : r.defaultAction = (lines.filterMap DefinitionLine.default?).head?
  properties : MarksFirst (lines.filterMap DefinitionLine.property?) r.properties
  duplicates : r.duplicates = duplicateWarnings source p (lines.filterMap DefinitionLine.property?)

theorem Takes.after {lines : List DefinitionLine} {line : DefinitionLine} {r r' : DefinitionReader}
    (h : r.Takes source p line r') (hr : r.After source p lines) : r'.After source p (lines ++ [line]) := by
  have hmarked : r.hasNameProperty = (lines.filterMap DefinitionLine.property?).any (·.asks) := hr.properties.any
  obtain ⟨more, hmore, hmap⟩ := h.properties
  refine ⟨?_, ?_, ?_, ?_, ?_⟩
  · rw [h.typeNames, hr.typeNames, foldl_addNew_eraseDups, List.flatMap_append, List.flatMap_singleton]
  · rw [h.actions, hr.actions, foldl_addNew_eraseDups, List.flatMap_append, List.flatMap_singleton]
  · rw [h.defaultAction, hr.defaultAction, List.filterMap_append, List.head?_append, List.filterMap_cons]
    cases line.default? <;> rfl
  · rw [hmore, List.filterMap_append, List.filterMap_cons]
    cases hline : line.property? with
    | none =>
      rw [hline, Option.toList_none, List.map_nil, List.map_eq_nil_iff] at hmap
      rw [hmap, List.append_nil]
      exact (List.append_nil _).symm ▸ hr.properties
    | some d =>
      rw [hline, Option.toList_some, List.map_singleton, List.map_eq_singleton_iff] at hmap
      obtain ⟨q, rfl, hq⟩ := hmap
      obtain ⟨hname, hmark⟩ := Prod.mk.inj hq
      exact hr.properties.concat hname hmark
  · rw [h.duplicates, hr.duplicates, List.filterMap_append, List.filterMap_cons, hmarked]
    generalize lines.filterMap DefinitionLine.property? = declared
    cases line.property? with
    | none => simp
    | some d =>
      rw [List.filterMap_nil, duplicateWarnings_concat, Option.toList_some, List.filter_cons]
      cases d.asks && declared.any (·.asks) <;> rfl

/-- What has been read after some commands is what their lines declare. -/
theorem after_run (commands : List Command) {start : DefinitionReader} (hstart : start.After source p []) :
    (commands.foldl (fun r c => r.command source p c) start).After source p
      (commands.map (Command.definitionLine (ctx source p))) := by
  induction commands using List.reverseRecOn with
  | nil => exact hstart
  | append_singleton commands c ih =>
    rw [List.foldl_append, List.map_append]
    exact (takes_command source p c _).after source p ih

end DefinitionReader

end Reading

/-! ### Whole files -/

def definitionLines (text source : Text) : List DefinitionLine :=
  let p := Program.ofText text
  (definitionCommands p.statements).map (Command.definitionLine ⟨source, p.lines, .empty⟩)

theorem ResourceDefinition.after_ofText (text source : Text) :
    let p := Program.ofText text
    (readDefinitionList source p p.statements
      ⟨[], [], [], none, p.problems.map (Diagnostic.ofProblem source p.lines)⟩).After source p
        (definitionLines text source) := by
  intro p
  rw [readDefinitionList_eq]
  refine DefinitionReader.after_run source p _ ⟨rfl, rfl, rfl, .nil, ?_⟩
  exact Diagnostic.filter_code_ofProblem source p.lines p.problems (by decide)

/-- The properties of a definition are those its file declares, in order. Marked as the name property is the first
of them that asks for it, and no other; each later one that asks is reported, once. Actions and type names have no
duplicates; the type names are the declared ones, in the order in which they are first seen, and then those of the
supplied names that are new. There is a default action if and only if there is an action, and it is one of
them. -/
theorem definition_well_formed (text source : Text) (supplied : List Text) :
    let p := Program.ofText text
    let lines := definitionLines text source
    let declared := lines.filterMap DefinitionLine.property?
    let d := ResourceDefinition.ofText text source supplied
    MarksFirst declared d.properties ∧
    (∀ (i j : Nat) (q q' : PropertySchema), d.properties[i]? = some q → d.properties[j]? = some q' →
      q.isNameProperty = true → q'.isNameProperty = true → i = j) ∧
    (d.diagnostics.filter (·.code == .schemaDuplicateNameProperty) = ((declared.filter (·.asks)).drop 1).map
      fun q => ⟨.duplicateNameProperty q.name, source, p.spanOf q.extent, none⟩) ∧
    FirstSeen (lines.flatMap DefinitionLine.actionNames) d.actions ∧
    (∃ own new, d.typeNames = own ++ new ∧ d.typeNames.Nodup ∧
      FirstSeen (lines.flatMap DefinitionLine.typeNames) own ∧
      FirstSeen (supplied.filter (!own.contains ·)) new) ∧
    (d.defaultAction.isSome = true ↔ d.actions ≠ []) ∧ ∀ action ∈ d.defaultAction, action ∈ d.actions := by
  intro p lines declared d
  have hafter := ResourceDefinition.after_ofText text source
  have hactions : d.actions = (lines.flatMap DefinitionLine.actionNames).eraseDups := hafter.actions
  have hdefault : ∀ action ∈ d.defaultAction, action ∈ d.actions := by
    intro action haction
    rcases Option.or_eq_some_iff.1 haction with hdeclared | ⟨-, hfirst⟩
    · rw [hafter.defaultAction] at hdeclared
      obtain ⟨line, hline, hname⟩ := List.mem_filterMap.1 (List.mem_of_head? hdeclared)
      rw [hactions, List.mem_eraseDups]
      exact List.mem_flatMap.2 ⟨line, hline, DefinitionLine.mem_actionNames_of_default? hname⟩
    -- no action is declared as default, so it is the first one
    · exact List.mem_of_head? hfirst
  refine ⟨hafter.properties, fun i j q q' => hafter.properties.unique, hafter.duplicates,
    hactions ▸ firstSeen_eraseDups _, ?_, ⟨?_, ?_⟩, hdefault⟩
  · have hall : d.typeNames = (lines.flatMap DefinitionLine.typeNames ++ supplied).eraseDups :=
      (congrArg (supplied.foldl addNew) hafter.typeNames).trans (foldl_addNew_eraseDups _ supplied)
    have hnew : supplied.removeAll (lines.flatMap DefinitionLine.typeNames) =
        supplied.filter (!(lines.flatMap DefinitionLine.typeNames).eraseDups.contains ·) :=
      List.filter_congr fun name _ => by simp [List.elem_eq_contains]
    refine ⟨_, _, hall.trans List.eraseDups_append, hall ▸ nodup_eraseDups _, firstSeen_eraseDups _, ?_⟩
    rw [hnew]
    exact firstSeen_eraseDups _
  · intro hsome
    obtain ⟨action, haction⟩ := Option.isSome_iff_exists.1 hsome
    exact List.ne_nil_of_mem (hdefault action haction)
  · intro hne
    have hfirst : d.actions.head?.isSome = true := List.isSome_head?.2 hne
    exact Option.isSome_or.trans (Bool.or_eq_true_iff.2 (.inr hfirst))

end Cookbook
