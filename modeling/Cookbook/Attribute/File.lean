import Cookbook.Attribute.Basic
import Cookbook.Statement.Parser
import Cookbook.Value.Normalize

/-!
Attribute files: assignments at the precedence levels, in the order written. A conditional write
counts only when its path, a path above it or one below it has no value yet at that level. Local
names are followed, branches are all read, and anything else is reported.
-/

namespace Cookbook

/-! ### Paths assigned so far -/

/-- A level and a path as one text. -/
def assignedId (precedence : Precedence) (path : KeyPath) : Text :=
  precedence.word ++ 1 :: keyPathId path

/-- The levels and leaf paths that have been given a value, in the order in which they first
were. -/
structure AssignedPaths where
  ids : List Text

namespace AssignedPaths

def empty : AssignedPaths := ⟨[]⟩

def add (assigned : AssignedPaths) (id : Text) : AssignedPaths :=
  if assigned.ids.contains id then assigned else ⟨assigned.ids ++ [id]⟩

/-- The paths with all leaves of a value assigned at a path. -/
def addLeaves (assigned : AssignedPaths) (precedence : Precedence) (path : KeyPath) (v : Value) :
    AssignedPaths :=
  (v.leaves path).foldl (fun assigned (leaf, _) => assigned.add (assignedId precedence leaf))
    assigned

/-- Whether the path, one above it or one below it has a value at the level. -/
def covers (assigned : AssignedPaths) (precedence : Precedence) (path : KeyPath) : Bool :=
  let above := (List.range path.length).any fun k =>
    assigned.ids.contains (assignedId precedence (path.take (k + 1)))
  above || assigned.ids.any fun id => (assignedId precedence path ++ [0]).isPrefixOf id

end AssignedPaths

/-! ### Targets -/

/-- What an assignment writes to: a level, a path, and whether only when nothing is there. -/
structure AssignmentTarget where
  precedence : Precedence
  ifUnset : Bool
  keyPath : KeyPath

/-- The level a word names, and whether it asks for a conditional write. -/
def levelOf? (word : Text) : Option (Precedence × Bool) :=
  let base := (Text.dropTail? word "_unless").getD word
  let ifUnset := (Text.dropTail? word "_unless").isSome
  if base = ("set" : Text) then some (.normal, ifUnset)
  else (Precedence.ofWord? base).map (·, ifUnset)

/-- The level that the left side of an assignment starts with, and the number of tokens that name
it; the node itself stands for the normal level. -/
def leadingLevel? : List Token → Option (Precedence × Bool × Nat)
  | [] => none
  | root :: rest => do
    let word ← root.valueOf? .ident
    if word = ("node" : Text) then
      match rest with
      | dot :: level :: _ =>
        if dot.isPunct ["."] && level.isKind .ident then
          (levelOf? (← level.valueOf? .ident)).map fun (p, u) => (p, u, 3)
        else return (.normal, false, 1)
      | _ => return (.normal, false, 1)
    else (levelOf? word).map fun (p, u) => (p, u, 1)

/-- The target that the left side of an assignment names. -/
def assignmentTarget? (constants : Bindings Value) (left : List Token) (op : Text) :
    Option AssignmentTarget := do
  let (precedence, ifUnset, lead) ← leadingLevel? left
  let (keys, n) ← readKeys false constants (left.drop lead)
  if keys.isEmpty || lead + n ≠ left.length then none
  else return ⟨precedence, ifUnset || op == "||=", keys⟩

/-! ### Reading a file -/

/-- What has been read of a file: local names, assigned paths, assignments and diagnostics (both in
order), and the index of the next assignment. -/
structure AttributeReader where
  constants : Bindings Value
  assigned : AssignedPaths
  assignments : List Assignment
  diagnostics : List Diagnostic
  nextIndex : Int

namespace AttributeReader

def report (r : AttributeReader) (source : Text) (span : Span) (finding : Finding) :
    AttributeReader :=
  { r with diagnostics := r.diagnostics ++ [⟨finding, source, span, none⟩] }

/-- A local name set to a value; one that is kept as written or depends on a condition is
forgotten. -/
def setLocal (r : AttributeReader) (source : Text) (lines : LineIndex) (name : Text)
    (isModified : Bool) (right : List Token) : AttributeReader :=
  let n := NormalizeContext.normalize ⟨source, lines, r.constants⟩ right
  if isModified || n.value.isVerbatim then { r with constants := r.constants.erase name }
  else { r with constants := r.constants.set name n.value }

def assign (r : AttributeReader) (source : Text) (lines : LineIndex) (target : AssignmentTarget)
    (span : Span) (conditional : Bool) (right : List Token) : AttributeReader :=
  let n := NormalizeContext.normalize ⟨source, lines, r.constants⟩ right
  { r with
    diagnostics := r.diagnostics ++ n.diagnostics
    assigned := r.assigned.addLeaves target.precedence target.keyPath n.value
    assignments := r.assignments ++ [⟨target.precedence, target.keyPath, n.value, some r.nextIndex,
      some source, some span, conditional⟩]
    nextIndex := r.nextIndex + 1 }

/-- The local name that stands alone on the left side. -/
def localName? (left : List Token) (op : Text) : Option Text :=
  match left with
  | [t] => if op = ("=" : Text) then (t.valueOf? .const).or (t.valueOf? .ident) else none
  | _ => none

def command (r : AttributeReader) (source : Text) (p : Program) (conditional : Bool) (c : Command) :
    AttributeReader :=
  let span := p.spanOf c.extent
  let r := match c.modifier with
    | some m => if conditional then r else r.report source span (.modifiedAssignment m.word.text)
    | none => r
  let left := c.head.takeWhile fun t => !t.isPunct ["=", "||="]
  match c.head.drop left.length with
  | [] => r.report source span (.notAssignment (p.sourceOf c.head))
  | op :: right =>
    if left.isEmpty || c.block.isSome then
      r.report source span (.notAssignment (p.sourceOf c.head))
    else match localName? left op.text with
      | some name => r.setLocal source p.lines name c.modifier.isSome right
      | none =>
        match assignmentTarget? r.constants left op.text with
        | none => r.report source span (.notAttribute (p.sourceOf left))
        | some target =>
          if target.ifUnset && r.assigned.covers target.precedence target.keyPath then r
          else r.assign source p.lines target span (conditional || c.modifier.isSome) right

end AttributeReader

mutual

/-- One statement of an attribute file; `conditional` when it stands in a branch. -/
def Statement.readAttributes (source : Text) (p : Program) (conditional : Bool) :
    Statement → AttributeReader → AttributeReader
  | .command c, r => r.command source p conditional c
  | .conditional ⟨extent, word, _, branches, _, _⟩, r =>
    let r := if conditional then r
      else r.report source (p.spanOf extent) (.conditionalAssignments word.text)
    readAttributeBranches source p branches r
  | .compound ⟨extent, _, body, opener, _⟩, r =>
    if opener.text = ("begin" : Text) then readAttributeList source p conditional body r
    else r.report source (p.spanOf extent) (.notAssignmentBlock opener.text)

def readAttributeList (source : Text) (p : Program) (conditional : Bool) :
    List Statement → AttributeReader → AttributeReader
  | [], r => r
  | s :: rest, r =>
    readAttributeList source p conditional rest (s.readAttributes source p conditional r)

def readAttributeBranches (source : Text) (p : Program) :
    List Branch → AttributeReader → AttributeReader
  | [], r => r
  | ⟨_, _, body, _⟩ :: rest, r =>
    readAttributeBranches source p rest (readAttributeList source p true body r)

end

/-- What an attribute file gives: its assignments, its diagnostics, and the paths assigned after
it. -/
structure AttributeFile where
  assignments : List Assignment
  diagnostics : List Diagnostic
  assigned : AssignedPaths

/-- The attribute file with the given text. Assignments are numbered from `startIndex`, and
`assigned` are the paths that earlier files have given a value. -/
def AttributeFile.ofText (source text : Text) (startIndex : Int) (assigned : AssignedPaths) :
    AttributeFile :=
  let p := Program.ofText text
  let start : AttributeReader :=
    ⟨.empty, assigned, [], p.problems.map (Diagnostic.ofProblem source p.lines), startIndex⟩
  let r := readAttributeList source p false p.statements start
  ⟨r.assignments, r.diagnostics, r.assigned⟩

end Cookbook
