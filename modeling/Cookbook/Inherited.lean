import Cookbook.Fields

/-!
Inherited members. Every record has, besides its own entries, the members that all records share, so
looking up the name of one finds something also where there is no entry. Where text is expected, what
is found counts by its text.
-/

namespace Cookbook

/-- A member that every record has. -/
inductive Inherited where
  | object | defineGetter | defineSetter | hasOwn | lookupGetter | lookupSetter | isPrototypeOf
  | isEnumerable | toText | valueOf | prototype | toLocaleText
deriving DecidableEq

namespace Inherited

def all : List Inherited :=
  [object, defineGetter, defineSetter, hasOwn, lookupGetter, lookupSetter, isPrototypeOf,
   isEnumerable, toText, valueOf, prototype, toLocaleText]

def name : Inherited → Text
  | object => "constructor"
  | defineGetter => "__defineGetter__"
  | defineSetter => "__defineSetter__"
  | hasOwn => "hasOwnProperty"
  | lookupGetter => "__lookupGetter__"
  | lookupSetter => "__lookupSetter__"
  | isPrototypeOf => "isPrototypeOf"
  | isEnumerable => "propertyIsEnumerable"
  | toText => "toString"
  | valueOf => "valueOf"
  | prototype => "__proto__"
  | toLocaleText => "toLocaleString"

def ofName? (name : Text) : Option Inherited := all.find? (·.name == name)

def functionText (name : Text) : Text := "function " ++ name ++ "() \x7b [native code] \x7d"

/-- The name and the number of parameters of the function that a member is. All are functions but
one, the record that the others belong to. -/
def function? : Inherited → Option (Text × Nat)
  | object => some ("Object", 1)
  | defineGetter => some (defineGetter.name, 2)
  | defineSetter => some (defineSetter.name, 2)
  | prototype => none
  | toText => some (toText.name, 0)
  | valueOf => some (valueOf.name, 0)
  | toLocaleText => some (toLocaleText.name, 0)
  | m => some (m.name, 1)

/-- The text of the record that the members belong to. -/
def recordText : Text := "[object Object]"

def text (m : Inherited) : Text :=
  match m.function? with
  | some (name, _) => functionText name
  | none => recordText

/-- The text found under a name where there is no entry. -/
def text? (name : Text) : Option Text := (ofName? name).map text

theorem mem_all (m : Inherited) : m ∈ all := by cases m <;> decide

@[simp] theorem ofName?_name (m : Inherited) : ofName? m.name = some m := by cases m <;> decide

theorem ofName?_eq_some_iff {name : Text} {m : Inherited} :
    ofName? name = some m ↔ m.name = name := by
  constructor
  · intro h
    have hname := List.find?_some h
    exact beq_iff_eq.1 hname
  · rintro rfl
    exact ofName?_name m

theorem text?_eq_some_iff {name text : Text} :
    text? name = some text ↔ ∃ m : Inherited, m.name = name ∧ m.text = text := by
  simp only [text?, Option.map_eq_some_iff, ofName?_eq_some_iff]

/-! ### Members of functions -/

/-- The functions among the members of `Object`. -/
def objectFunctions : List Text :=
  ["assign", "getOwnPropertyDescriptor", "getOwnPropertyDescriptors", "getOwnPropertyNames",
   "getOwnPropertySymbols", "hasOwn", "is", "preventExtensions", "seal", "create",
   "defineProperties", "defineProperty", "freeze", "getPrototypeOf", "setPrototypeOf",
   "isExtensible", "isFrozen", "isSealed", "keys", "entries", "fromEntries", "values", "groupBy"]

/-- The texts of the members of `Object` that other functions do not have. -/
def objectTexts : List (Text × Text) :=
  ("prototype", recordText) :: objectFunctions.map fun name => (name, functionText name)

/-- The texts of what every function has besides what every record has, given its name and the
number of its parameters. -/
def functionTexts (name : Text) (parameters : Nat) : List (Text × Text) :=
  [("name", name), ("length", Text.ofNat parameters), ("constructor", functionText "Function"),
   ("__proto__", functionText []), ("apply", functionText "apply"), ("bind", functionText "bind"),
   ("call", functionText "call")]

/-- The texts of what a member has besides what every record has. -/
def ownTexts (m : Inherited) : List (Text × Text) :=
  match m.function? with
  | none => []
  | some (name, parameters) =>
    functionTexts name parameters ++ if m = object then objectTexts else []

/-- A member has nothing of its own twice. -/
theorem nodup_ownTexts (m : Inherited) : (m.ownTexts.map (·.1)).Nodup := by
  have h : ∀ m ∈ all, (m.ownTexts.map (·.1)).Nodup := by decide +kernel
  exact h m m.mem_all

/-- Whether reading a name of a member is refused: functions do not tell who calls them, nor with
what. -/
def refuses (m : Inherited) (name : Text) : Bool :=
  m.function?.isSome && (name == ("arguments" : Text) || name == ("caller" : Text))

end Inherited

end Cookbook
