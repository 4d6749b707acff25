import Cookbook.Position
import Cookbook.Value.Basic

/-!
Attributes: precedence levels, assignments of attribute files, and the value that is in effect for
each key path. A hash sets each of its keys, so assignments are compared leaf by leaf.
-/

namespace Cookbook

/-- The levels at which attributes are assigned. -/
inductive Precedence where
  | default | forceDefault | normal | override | forceOverride | automatic
deriving DecidableEq

namespace Precedence

def all : List Precedence := [default, forceDefault, normal, override, forceOverride, automatic]

def word : Precedence → Text
  | default => "default"
  | forceDefault => "force_default"
  | normal => "normal"
  | override => "override"
  | forceOverride => "force_override"
  | automatic => "automatic"

def ofWord? (word : Text) : Option Precedence := all.find? (·.word == word)

/-- The rank of a level; of two values the one of higher rank is in effect. -/
def rank : Precedence → Nat
  | default => 0
  | normal => 1
  | forceDefault => 2
  | override => 3
  | forceOverride => 4
  | automatic => 5

end Precedence

/-- A path of keys into the attributes. -/
abbrev KeyPath := List Text

/-- A path as one text. -/
def keyPathId (path : KeyPath) : Text := Text.join [0] path

/-- An assignment of an attribute. Its index orders it among all assignments; without one its place
in the list does. -/
structure Assignment where
  precedence : Precedence
  keyPath : KeyPath
  value : Value
  index : Option Int
  source : Option Text
  span : Option Span
  conditional : Bool

/-- The value in effect for a key path, and where it was assigned. -/
structure EffectiveAttribute where
  keyPath : KeyPath
  value : Value
  precedence : Precedence
  source : Option Text
  span : Option Span

/-! ### Leaves -/

mutual

/-- The leaves of a value assigned at a path: those of each entry of a hash that has any, and
otherwise the value itself. -/
def Value.leaves (path : KeyPath) : Value → List (KeyPath × Value)
  | .map (e :: more) => entryLeaves path (e :: more)
  | v => [(path, v)]

def entryLeaves (path : KeyPath) : List Entry → List (KeyPath × Value)
  | [] => []
  | ⟨key, v⟩ :: rest => v.leaves (path ++ [key]) ++ entryLeaves path rest

end

/-! ### Values in effect -/

/-- A leaf of an assignment, with what decides whether it is in effect. -/
structure Candidate where
  assignment : Assignment
  keyPath : KeyPath
  value : Value
  order : Int

namespace Candidate

/-- The leaves of the assignment at a place in the list. -/
def ofAssignment (a : Assignment) (place : Nat) : List Candidate :=
  (a.value.leaves a.keyPath).map fun (path, value) => ⟨a, path, value, a.index.getD place⟩

/-- Whether a later candidate takes the place of the one that holds: a higher rank wins, and of
equal ranks the one that is not ordered before. -/
def beats (challenger holder : Candidate) : Bool :=
  let a := challenger.assignment.precedence.rank
  let b := holder.assignment.precedence.rank
  if a ≠ b then b < a else holder.order ≤ challenger.order

/-- The holders after one more candidate. -/
def contend (holders : Bindings Candidate) (c : Candidate) : Bindings Candidate :=
  let id := keyPathId c.keyPath
  match holders.get? id with
  | some holder => if c.beats holder then holders.set id c else holders
  | none => holders.set id c

/-- The attribute that a candidate in effect gives. -/
def effective (c : Candidate) : EffectiveAttribute :=
  ⟨c.keyPath, c.value, c.assignment.precedence, c.assignment.source, c.assignment.span⟩

end Candidate

/-- The value in effect for each key path, in the order in which the paths first occur. -/
def effectiveAttributes (assignments : List Assignment) : List EffectiveAttribute :=
  let candidates := assignments.zipIdx.flatMap fun (a, place) => Candidate.ofAssignment a place
  (candidates.foldl Candidate.contend .empty).entries.map fun (_, c) => c.effective

end Cookbook
