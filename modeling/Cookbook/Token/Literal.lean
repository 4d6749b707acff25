import Cookbook.Token.Basic

/-!
The inside of string literals: escapes, interpolated code, nested delimiters, and the removal of
the common indentation of a squiggly heredoc. A reader looks only at what follows the opening
delimiter and says how many units it took.
-/

namespace Cookbook

/-! ### Interpolated code -/

/-- The number of units before the brace that closes an interpolation. Braces nest; inside quotes
they do not count, and a backslash hides the unit after it. `quote` is the quote the reader stands
in, `depth` the number of braces still open. -/
def codeLength (quote : Option CodeUnit) (depth : Nat) : Text → Option Nat
  | [] => none
  | c :: rest =>
    if c = '\\' then
      match rest with
      | [] => none
      | _ :: rest => (codeLength quote depth rest).map (· + 2)
    else
      match quote with
      | some q => (codeLength (if c = q then none else some q) depth rest).map (· + 1)
      | none =>
        if c = '\x22' ∨ c = '\x27' then (codeLength (some c) depth rest).map (· + 1)
        else if c = '\x7b' then (codeLength none (depth + 1) rest).map (· + 1)
        else if c = '\x7d' then
          if depth = 0 then some 0 else (codeLength none (depth - 1) rest).map (· + 1)
        else (codeLength none depth rest).map (· + 1)

/-! ### Quoted content -/

/-- The unit an escape stands for in a literal that interpolates; an escaped newline is nothing. -/
def cookEscape (c : CodeUnit) : Text :=
  if c = 'n' then ['\n']
  else if c = 't' then ['\t']
  else if c = 's' then [' ']
  else if c = 'r' then ['\r']
  else if c = '0' then [0]
  else if c = 'e' then [0x1B]
  else if c = '\n' then []
  else [c]

/-- How a literal is delimited, and whether it interpolates. A body without a closer runs to the end
of what is given. -/
structure Quoting where
  opener : Option CodeUnit
  closer : Option CodeUnit
  interpolates : Bool

namespace Quoting

def quotes (quote : CodeUnit) (interpolates : Bool) : Quoting :=
  ⟨some quote, some quote, interpolates⟩

/-- A body that nothing but the end of the text closes. -/
def body (interpolates : Bool) : Quoting := ⟨none, none, interpolates⟩

/-- What a backslash and the unit after it stand for. Without interpolation only a backslash or a
delimiter loses the backslash before it. -/
def escape (q : Quoting) (next : CodeUnit) : Text :=
  if q.interpolates then cookEscape next
  else if next = '\\' ∨ some next = q.closer ∨ some next = q.opener then [next]
  else ['\\', next]

/-- What a backslash at the very end stands for. -/
def lastEscape (q : Quoting) : Text := if q.interpolates then [] else ['\\']

/-- The number of units in the interpolation that starts at `c` and goes on in `rest`, when one
does. -/
def codeAt? (q : Quoting) (c : CodeUnit) (rest : Text) : Option Nat :=
  if q.interpolates ∧ c = '#' then
    match rest with
    | b :: after => if b = '\x7b' then codeLength none 0 after else none
    | [] => none
  else none

end Quoting

/-- Text put in front of the parts of a literal: it joins a text part that comes first. -/
def StringPart.consText (value : Text) (parts : List StringPart) : List StringPart :=
  if value = [] then parts
  else match parts with
    | .text more :: rest => .text (value ++ more) :: rest
    | _ => .text value :: parts

/-- Quoted content that was read: its parts, the number of units taken (with the closer), and
whether the closer was found. -/
structure Quoted where
  parts : List StringPart
  length : Nat
  closed : Bool

namespace Quoted

/-- The same content after `n` more units that stand for `value`. -/
def after (r : Quoted) (n : Nat) (value : Text) : Quoted :=
  ⟨StringPart.consText value r.parts, r.length + n, r.closed⟩

/-- Quoted content from just after the opening delimiter, at offset `pos`. `depth` counts the inner
openers still open; `skip` is the number of units that belong to an interpolation already taken. -/
def read (q : Quoting) : (pos depth skip : Nat) → Text → Quoted
  | _, _, _, [] => ⟨[], 0, q.closer.isNone⟩
  | pos, depth, skip + 1, _ :: rest => (read q (pos + 1) depth skip rest).after 1 []
  | pos, depth, 0, c :: rest =>
    if c = '\\' then
      match rest with
      | [] => ⟨StringPart.consText q.lastEscape [], 1, q.closer.isNone⟩
      | next :: rest => (read q (pos + 2) depth 0 rest).after 2 (q.escape next)
    else
      match q.codeAt? c rest with
      | some n =>
        let more := read q (pos + 1) depth (n + 2) rest
        ⟨.code (rest.tail.take n) (pos + 2) :: more.parts, more.length + 1, more.closed⟩
      | none =>
        if q.closer.isSome ∧ q.opener ≠ q.closer ∧ some c = q.opener then
          (read q (pos + 1) (depth + 1) 0 rest).after 1 [c]
        else if some c = q.closer then
          if depth = 0 then ⟨[], 1, true⟩ else (read q (pos + 1) (depth - 1) 0 rest).after 1 [c]
        else (read q (pos + 1) depth 0 rest).after 1 [c]

/-- The quoted content that starts at offset `pos`. -/
def ofText (q : Quoting) (pos : Nat) (t : Text) : Quoted := read q pos 0 0 t

end Quoted

/-! ### Squiggly heredocs -/

/-- The text of the parts, each piece of code counted as one letter. -/
def StringPart.outline (parts : List StringPart) : Text :=
  parts.flatMap fun
    | .text value => value
    | .code _ _ => ['x']

/-- The least indentation of the lines that are not blank; zero when all are. -/
def commonIndent (t : Text) : Nat :=
  let lines := (t.splitOn '\n').filter fun line => !line.trim.isEmpty
  ((lines.map fun line => line.length - line.trimStart.length).min?).getD 0

/-- A text without up to `width` spaces and tabs at the start of each line, and whether it ends at
the start of a line. `removed` counts those removed from the line so far. -/
def dedentText (width : Nat) : (atStart : Bool) → (removed : Nat) → Text → Text × Bool
  | atStart, _, [] => ([], atStart)
  | atStart, removed, c :: rest =>
    if c = '\n' then
      let (out, last) := dedentText width true 0 rest
      (c :: out, last)
    else if atStart ∧ (c = ' ' ∨ c = '\t') ∧ removed < width then
      dedentText width true (removed + 1) rest
    else
      let (out, last) := dedentText width false removed rest
      (c :: out, last)

/-- The parts without up to `width` blanks at the start of each line; code never starts a line. -/
def dedentParts (width : Nat) : (atStart : Bool) → List StringPart → List StringPart
  | _, [] => []
  | _, .code source offset :: rest => .code source offset :: dedentParts width false rest
  | atStart, .text value :: rest =>
    let (out, last) := dedentText width atStart 0 value
    .text out :: dedentParts width last rest

/-- The parts of a squiggly heredoc: the common indentation is removed. -/
def dedent (parts : List StringPart) : List StringPart :=
  let width := commonIndent (StringPart.outline parts)
  if width = 0 then parts else dedentParts width true parts

end Cookbook
