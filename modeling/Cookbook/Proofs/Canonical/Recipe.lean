import Cookbook.Declaration.Extract

/-!
Canonical recipes: trees of resources and conditionals on one attribute, the text that each is
printed as, and what it is meant to declare.

* `Word`, `Resource` and `Item` hold only what may be printed;
* `printItems` is the text of a recipe;
* `outlines` is what it declares, up to where the declarations stand.
-/

namespace Cookbook

/-- What a declaration says, apart from where it stands. -/
structure Outline where
  type : Text
  name : Value
  actions : List Text
  properties : List (Text × Value)
  guards : List Guard
  notifications : List Notification
  context : List (ContextForm × Bool)
  inLoop : Bool
  malformed : Bool

def Declaration.outline (d : Declaration) : Outline :=
  { type := d.type, name := d.name, actions := d.actions
    properties := d.properties.map fun p => (p.name, p.value)
    guards := d.guards, notifications := d.notifications
    context := d.context.map fun c => (c.form, c.negated)
    inLoop := d.inLoop, malformed := d.malformed }

namespace Canonical

/-! ### Recipes -/

/-- A unit of a word: a lower-case letter, a digit or an underscore. -/
def isWordUnit (c : CodeUnit) : Bool := c.isLower || c.isDigit || c == '_'

def isWord : Text → Bool
  | [] => false
  | c :: rest => !c.isDigit && (c :: rest).all isWordUnit

/-- A lower-case identifier that is no keyword. -/
structure Word where
  text : Text
  isWord : isWord text = true
  notKeyword : keywords.contains text = false

/-- The words that do not name a property in a resource block. -/
def bodyWords : List Text := ["action", "only_if", "not_if", "notifies", "subscribes"]

/-- A resource with texts for its name and its properties. -/
structure Resource where
  type : Word
  name : Text
  actions : List Word
  properties : List (Word × Text)
  declares : notResources.contains type.text = false
  plain : ∀ p ∈ properties, bodyWords.contains p.1.text = false

/-- A resource, or a choice by an attribute of the node. -/
inductive Item where
  | resource (r : Resource)
  | choice (key : Text) (items : List Item) (others : Option (List Item))

/-! ### Printing -/

/-- A text with a backslash before each backslash and quote. -/
def escaped (value : Text) : Text :=
  value.flatMap fun (c : CodeUnit) => if c = '\\' ∨ c = '\x27' then ['\\', c] else [c]

def quoted (value : Text) : Text := "'" ++ escaped value ++ "'"

def printActions : List Word → Text
  | [] => []
  | actions => "action [" ++ Text.join ", " (actions.map fun a => ":" ++ a.text) ++ "]\n"

def printProperty (p : Word × Text) : Text := p.1.text ++ " " ++ quoted p.2 ++ "\n"

def Resource.print (r : Resource) : Text :=
  r.type.text ++ " " ++ quoted r.name ++ " do\n" ++ printActions r.actions ++
    r.properties.flatMap printProperty ++ "end\n"

def test (key : Text) : Text := "node[" ++ quoted key ++ "]"

mutual

def Item.print : Item → Text
  | .resource r => r.print
  | .choice key items none => "if " ++ test key ++ "\n" ++ printItems items ++ "end\n"
  | .choice key items (some others) =>
    "if " ++ test key ++ "\n" ++ printItems items ++ "else\n" ++ printItems others ++ "end\n"

def printItems : List Item → Text
  | [] => []
  | item :: rest => item.print ++ printItems rest

end

/-! ### Meaning -/

/-- What a resource declares under some tests, outermost first, each perhaps negated. -/
def Resource.outline (context : List (ContextForm × Bool)) (r : Resource) : Outline :=
  { type := r.type.text, name := .ofText r.name, actions := r.actions.map (·.text)
    properties := r.properties.map fun (p, value) => (p.text, .ofText value)
    guards := [], notifications := [], context, inLoop := false, malformed := false }

mutual

/-- What an item declares under some tests. -/
def Item.outlines (context : List (ContextForm × Bool)) : Item → List Outline
  | .resource r => [r.outline context]
  | .choice key items none => Canonical.outlines (context ++ [(.test (test key), false)]) items
  | .choice key items (some others) =>
    Canonical.outlines (context ++ [(.test (test key), false)]) items ++
      Canonical.outlines (context ++ [(.test (test key), true)]) others

def outlines (context : List (ContextForm × Bool)) : List Item → List Outline
  | [] => []
  | item :: rest => item.outlines context ++ Canonical.outlines context rest

end

end Canonical

end Cookbook
