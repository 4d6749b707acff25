import Cookbook.Fields
import Cookbook.Number.Shortest

/-!
Values of expressions: literals, symbols, paths into the node's attributes, texts with values in
them, lists, hashes, and code that was kept as written because no other form fits it.
-/

namespace Cookbook

/-- Where an attribute path starts. -/
inductive Scope where
  | node | default | forceDefault | normal | override | forceOverride | automatic | set
  | newResource
deriving DecidableEq

namespace Scope

def all : List Scope :=
  [node, default, forceDefault, normal, override, forceOverride, automatic, set, newResource]

def word : Scope → Text
  | node => "node"
  | default => "default"
  | forceDefault => "force_default"
  | normal => "normal"
  | override => "override"
  | forceOverride => "force_override"
  | automatic => "automatic"
  | set => "set"
  | newResource => "new_resource"

def ofWord? (word : Text) : Option Scope := all.find? (·.word == word)

end Scope

/-- A literal. -/
inductive Scalar where
  | text (value : Text)
  | number (value : Number)
  | bool (value : Bool)
  | nil
deriving DecidableEq

namespace Scalar

/-- The text of a literal other than nil. -/
def text? : Scalar → Option Text
  | text value => some value
  | number value => some value.text
  | bool value => some (if value then "true" else "false")
  | nil => none

/-- The text of a literal in running text, where nil is nothing. -/
def plain (s : Scalar) : Text := s.text?.getD []

/-- The text of a literal as a key, where nil is spelled out. -/
def keyText (s : Scalar) : Text := s.text?.getD "null"

end Scalar

mutual

/-- The value of an expression. -/
inductive Value where
  /-- A literal. -/
  | literal (scalar : Scalar)
  /-- A symbol. -/
  | symbol (name : Text)
  /-- A path into the node's attributes. -/
  | path (scope : Scope) (keys : List Text)
  /-- Text with values in it. -/
  | interpolation (segments : List Value)
  /-- A list. -/
  | list (items : List Value)
  /-- A hash, in the order written; a key may occur more than once. -/
  | map (entries : List Entry)
  /-- Code kept as written. -/
  | verbatim (raw : Text)

structure Entry where
  key : Text
  value : Value

end

namespace Value

def ofText (t : Text) : Value := .literal (.text t)

def nil : Value := .literal .nil

instance : Inhabited Value := ⟨nil⟩

/-- The scalar of a literal or a symbol. -/
def scalar? : Value → Option Scalar
  | .literal s => some s
  | .symbol name => some (.text name)
  | _ => none

/-- The text of a literal or symbol other than nil. -/
def literalText? (v : Value) : Option Text := v.scalar?.bind Scalar.text?

/-- Whether the value is code kept as written. -/
def isVerbatim : Value → Bool
  | .verbatim _ => true
  | _ => false

/-! ### Interpolation -/

/-- The segments of an interpolation, and any other value as its own segment. -/
def segments : Value → List Value
  | .interpolation segments => segments
  | v => [v]

/-- A literal that follows no other literal, after the segments so far; an empty text is passed
over. -/
def addLiteral (done : List Value) (s : Scalar) : List Value :=
  if s = .text [] then done else literal s :: done

/-- The segments so far (last first) with one more: a literal joins a literal before it, nil and
empty text are passed over, and a symbol becomes text. -/
def addSegment (done : List Value) (v : Value) : List Value :=
  match v.scalar? with
  | none => v :: done
  | some .nil => done
  | some s =>
    match done with
    | [] => addLiteral done s
    | last :: before =>
      match last.scalar? with
      | some l => ofText (l.plain ++ s.plain) :: before
      | none => addLiteral done s

/-- The interpolation of some segments: nested interpolations are opened, neighbouring literals are
joined, and what is left of literals alone is one text. -/
def interpolate (parts : List Value) : Value :=
  match ((parts.flatMap segments).foldl addSegment []).reverse with
  | [] => ofText []
  | [v] => match v.scalar? with
    | some s => ofText s.plain
    | none => .interpolation [v]
  | merged => .interpolation merged

end Value

/-! ### Code kept as written -/

mutual

/-- The pieces of code kept as written in a value, from left to right. -/
def Value.verbatims : Value → List Text
  | .verbatim raw => [raw]
  | .interpolation segments => verbatimsIn segments
  | .list items => verbatimsIn items
  | .map entries => verbatimsOf entries
  | _ => []

def verbatimsIn : List Value → List Text
  | [] => []
  | v :: rest => v.verbatims ++ verbatimsIn rest

def verbatimsOf : List Entry → List Text
  | [] => []
  | ⟨_, v⟩ :: rest => v.verbatims ++ verbatimsOf rest

end

/-- Whether a value is free of code kept as written. -/
def Value.isClear (v : Value) : Bool := v.verbatims.isEmpty

end Cookbook
