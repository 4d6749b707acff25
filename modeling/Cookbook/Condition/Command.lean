import Cookbook.Condition.Basic
import Cookbook.Number.Reading
import Cookbook.Value.Render

/-!
Shell commands that test the system: a few simple forms, each with one subject, perhaps negated, and
perhaps with its output sent away. Dynamic parts of the command stand in its text as numbered
marks, and are put back into the subject.
-/

namespace Cookbook

/-! ### Marked text -/

/-- The unit around the number of a dynamic part. -/
def markUnit : CodeUnit := 0

/-- The mark of the dynamic part with a number. -/
def markOf (number : Nat) : Text := markUnit :: Text.ofNat number ++ [markUnit]

/-- The text of a command with marks, and the dynamic parts in order. -/
structure MarkedCommand where
  text : Text
  dynamic : List Value

namespace MarkedCommand

def add (m : MarkedCommand) (segment : Value) : MarkedCommand :=
  match segment.scalar? with
  | some s => { m with text := m.text ++ s.plain }
  | none => ⟨m.text ++ markOf m.dynamic.length, m.dynamic ++ [segment]⟩

/-- The marked text of a command: a text, a path or an interpolation. -/
def ofValue? (v : Value) : Option MarkedCommand :=
  match v with
  | .literal (.text t) => some ⟨t, []⟩
  | .symbol t => some ⟨t, []⟩
  | .path _ _ => some (add ⟨[], []⟩ v)
  | .interpolation segments => some (segments.foldl add ⟨[], []⟩)
  | _ => none

/-- The dynamic part a number between marks stands for, or else that text itself. -/
def markValue (m : MarkedCommand) (number : Text) : Value :=
  let index := (Number.ofText? number).filter fun n => n.isInteger && 0 ≤ n.num
  ((index.bind fun n => m.dynamic[n.num.toNat]?)).getD (.ofText number)

/-- The pieces between marks, every second of which is a number. -/
def segmentsOf (m : MarkedCommand) : (isMark : Bool) → List Text → List Value
  | _, [] => []
  | true, piece :: rest => m.markValue piece :: segmentsOf m false rest
  | false, piece :: rest => .ofText piece :: segmentsOf m true rest

/-- The text between the quotes, when the first and the last unit are one kind of quote. -/
def unquote (raw : Text) : Text :=
  match raw with
  | q :: rest =>
    if (q = '\x22' ∨ q = '\x27') ∧ rest.getLast? = some q then rest.dropLast else raw
  | [] => []

/-- The value of a subject as it stands in the marked text. -/
def subjectValue (m : MarkedCommand) (raw : Text) : Value :=
  .interpolate (m.segmentsOf false ((unquote raw).splitOn markUnit))

end MarkedCommand

/-! ### Redirections -/

/-- The text after `lead` at its start. -/
def after? (lead t : Text) : Option Text :=
  if lead.isPrefixOf t then some (t.drop lead.length) else none

/-- The text after a redirection to the null device, whose arrow has been read. -/
def afterNull? (t : Text) : Option Text := after? "/dev/null" t.trimStart

/-- The text after one redirection at its start. -/
def redirection? (t : Text) : Option Text :=
  (after? "2>&1" t).or <| ((after? "&>" t).bind afterNull?).or <| do
    let t := match t with
      | c :: rest => if c = '1' ∨ c = '2' then rest else t
      | [] => []
    let t ← after? ">" t
    afterNull? ((after? ">" t).getD t)

/-- Whether a text is nothing but redirections, at least one, and blanks. -/
def isRedirections : (fuel : Nat) → Text → Bool
  | 0, _ => false
  | fuel + 1, t =>
    match redirection? t.trimStart with
    | none => false
    | some rest => rest.trimStart.isEmpty || isRedirections fuel rest

/-- The text without the redirections at its end. -/
def dropRedirections : Text → Text
  | [] => []
  | c :: rest =>
    if isRedirections (rest.length + 1) (c :: rest) then [] else c :: dropRedirections rest

/-! ### Patterns -/

inductive PatternPart where
  /-- The given text. -/
  | exactly (t : Text)
  /-- The given text or nothing. -/
  | perhaps (t : Text)
  /-- At least one blank. -/
  | blanks
  /-- An exclamation mark and blanks, or nothing. -/
  | negation
  /-- One of the given options and blanks, or nothing. -/
  | option (spellings : List Text)
  /-- One of the given letters. -/
  | letter (letters : Text)
  /-- A quoted text, or a run without blanks. -/
  | subject

/-- What the parts of a pattern have found. -/
structure CommandMatch where
  negated : Bool
  letter : Option CodeUnit
  subject : Text

/-- The text after the blanks it starts with; at least one. -/
def afterBlanks? (t : Text) : Option Text :=
  if t.head?.any CodeUnit.isSpace then some t.trimStart else none

/-- The text between two quotes at its start, quotes included, and the rest. -/
def quotedStart? (q : CodeUnit) : Text → Option (Text × Text)
  | c :: rest =>
    if c = q ∧ rest.contains q then
      let inner := rest.takeWhile (· != q)
      some (c :: inner ++ [q], rest.drop (inner.length + 1))
    else none
  | [] => none

/-- The run without blanks at the start of a text, and the rest; at least one unit. -/
def bareStart? (t : Text) : Option (Text × Text) :=
  let run := t.takeWhile (!CodeUnit.isSpace ·)
  if run.isEmpty then none else some (run, t.drop run.length)

namespace PatternPart

/-- The ways in which a part can stand at the start of a text, the preferred one first, each with
what has been found and the rest. -/
def ways (part : PatternPart) (m : CommandMatch) (t : Text) : List (CommandMatch × Text) :=
  match part with
  | exactly lead => ((after? lead t).map (m, ·)).toList
  | perhaps lead => [(m, (after? lead t).getD t)]
  | blanks => ((afterBlanks? t).map (m, ·)).toList
  | negation =>
    match (after? "!" t).bind afterBlanks? with
    | some rest => [({ m with negated := true }, rest)]
    | none => [(m, t)]
  | option spellings =>
    (spellings.filterMap fun o => ((after? o t).bind afterBlanks?).map (m, ·)) ++ [(m, t)]
  | letter letters =>
    match t with
    | c :: rest => if letters.contains c then [({ m with letter := some c }, rest)] else []
    | [] => []
  | subject =>
    ([quotedStart? '\x22' t, quotedStart? '\x27' t, bareStart? t].filterMap id).map fun (s, rest) =>
      ({ m with subject := s }, rest)

end PatternPart

/-- A command pattern: its parts, and the test it stands for, which a letter may decide. -/
structure CommandPattern where
  parts : List PatternPart
  test : Option CodeUnit → TestKind

namespace CommandPattern

/-- What the parts find in a text that they match to its end, in the preferred way. -/
def find? (parts : List PatternPart) (t : Text) : Option CommandMatch :=
  let start : List (CommandMatch × Text) := [(⟨false, none, []⟩, t)]
  let ends := parts.foldl (fun found part => found.flatMap fun (m, rest) => part.ways m rest) start
  (ends.find? fun (_, rest) => rest.isEmpty).map (·.1)

/-- The test of a path that a letter asks for. -/
def pathTest (letter : Option CodeUnit) : TestKind :=
  if letter = some 'f' then .fileExists
  else if letter = some 'd' then .directoryExists
  else .pathExists

/-- The words of a command before its subject, with blanks after each. -/
def leadWords (ws : List Text) : List PatternPart := ws.flatMap fun w => [.exactly w, .blanks]

/-- The known commands, the first match deciding. -/
def all : List CommandPattern :=
  [⟨leadWords ["test"] ++
      ([.negation, .exactly "-", .letter "efd", .blanks, .subject] : List PatternPart), pathTest⟩,
   ⟨[.exactly "[", .perhaps "[", .blanks, .negation, .exactly "-", .letter "efd", .blanks, .subject,
      .blanks, .exactly "]", .perhaps "]"], pathTest⟩,
   ⟨leadWords ["which"] ++ ([.subject] : List PatternPart), fun _ => .commandAvailable⟩,
   ⟨leadWords ["command", "-v"] ++ ([.subject] : List PatternPart), fun _ => .commandAvailable⟩,
   ⟨leadWords ["systemctl", "is-active"] ++
      ([.option ["--quiet", "-q"], .subject] : List PatternPart), fun _ => .serviceActive⟩,
   ⟨leadWords ["systemctl", "is-enabled"] ++
      ([.option ["--quiet", "-q"], .subject] : List PatternPart), fun _ => .serviceEnabled⟩,
   ⟨leadWords ["service"] ++ ([.subject, .blanks, .exactly "status"] : List PatternPart),
      fun _ => .serviceActive⟩,
   ⟨leadWords ["pgrep"] ++ ([.option ["-f"], .subject] : List PatternPart), fun _ => .processRunning⟩,
   ⟨leadWords ["dpkg"] ++ ([.exactly "-", .letter "sl", .blanks, .subject] : List PatternPart),
      fun _ => .packageInstalled⟩,
   ⟨leadWords ["rpm", "-q"] ++ ([.subject] : List PatternPart), fun _ => .packageInstalled⟩,
   ⟨leadWords ["id"] ++ ([.option ["-u"], .subject] : List PatternPart), fun _ => .userExists⟩,
   ⟨leadWords ["getent", "passwd"] ++ ([.subject] : List PatternPart), fun _ => .userExists⟩,
   ⟨leadWords ["getent", "group"] ++ ([.subject] : List PatternPart), fun _ => .groupExists⟩]

end CommandPattern

/-- The test a command stands for, when it has one of the known forms. -/
def matchCommand? (command : Value) : Option Condition := do
  let marked ← MarkedCommand.ofValue? command
  let text := dropRedirections marked.text.trim
  CommandPattern.all.findSome? fun pattern => do
    let found ← CommandPattern.find? pattern.parts text
    let test := Condition.test (pattern.test found.letter) (marked.subjectValue found.subject)
    return if found.negated then .not test else test

end Cookbook
