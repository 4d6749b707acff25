import Cookbook.Token.Lexeme
import Cookbook.Problem

/-!
The tokens of a text. The scan goes from left to right and takes strings, comments, percent
literals and heredocs whole, so that brackets and keywords inside them are not seen as structure.
The body of a heredoc lies after the end of the line that opens it: the opener's token is placed at
once, and its parts are filled in when the line ends.
-/

namespace Cookbook

/-- The tokens of a text and what is wrong with its literals. -/
structure Lexed where
  tokens : List Token
  problems : List Problem

/-- A heredoc whose body has not been read: its opener, its place, and which token it is. -/
structure PendingHeredoc where
  opener : Lexeme.HeredocOpener
  start : Nat
  index : Nat

namespace PendingHeredoc

/-- Whether a line, with or without its newline, ends the body. -/
def isTerminator (h : PendingHeredoc) (line : Text) : Bool :=
  let line := (Text.dropTail? line "\n").getD line
  let line := (Text.dropTail? line "\r").getD line
  if h.opener.squiggly || h.opener.indented then line.trim == h.opener.name
  else line == h.opener.name

/-- The body among the given lines, the number of units it takes with its terminator line, and
whether that line was found. -/
def body (h : PendingHeredoc) (lines : List Text) : Text × Nat × Bool :=
  let body := (lines.takeWhile fun line => !h.isTerminator line).flatten
  match lines.find? h.isTerminator with
  | some line => (body, body.length + line.length, true)
  | none => (body, body.length, false)

/-- The parts of the body, which starts at offset `pos`. -/
def parts (h : PendingHeredoc) (pos : Nat) (body : Text) : List StringPart :=
  let read := Quoted.ofText (.body h.opener.interpolates) pos body
  if h.opener.squiggly then dedent read.parts else read.parts

end PendingHeredoc

/-- What the scan has seen: tokens and problems so far, heredocs whose bodies are still to come,
whether blanks were passed since the last token, and whether nothing else was passed on the line. -/
structure LexState where
  tokens : Array Token
  problems : Array Problem
  pending : List PendingHeredoc
  spaced : Bool
  atLineStart : Bool

namespace LexState

def start : LexState := ⟨#[], #[], [], false, true⟩

/-- The state after the lexeme at the start of `t`, which stands at offset `pos`; and how many units
after its first one it takes. -/
def push (s : LexState) (pos : Nat) (t : Text) (lexeme : Lexeme) : LexState × Nat :=
  let n := lexeme.length
  ({ s with tokens := s.tokens.push ⟨lexeme.content, pos, pos + n, t.take n, s.spaced⟩,
            spaced := false }, n - 1)

/-- Whether the last token is a dot that calls a method. -/
def afterDot (s : LexState) : Bool := s.tokens.back?.any (·.isPunct [".", "&."])

/-- Whether a percent sign or slash here would start a literal and not be an operator. After an
identifier it would when blanks stand before it and neither a blank nor `=` after it. -/
def inValuePosition (s : LexState) (next : Option CodeUnit) : Bool :=
  match s.tokens.back? with
  | none => true
  | some prev =>
    match prev.content with
    | .newline => true
    | .name .punct _ => !prev.isCloser
    | .name .keyword value => !(["end", "self", "true", "false", "nil"] : List Text).contains value
    | .name .label _ => true
    | .name .ident _ => s.spaced && next != some ' ' && next != some '='
    | _ => false

/-- Whether `<<` here shifts or appends: it follows a value without a blank. -/
def isShift (s : LexState) : Bool :=
  match s.tokens.back? with
  | none => false
  | some prev => !prev.isNewline && !s.spaced && !prev.isKind .punct

/-- The bodies of the given heredocs, one after another from the start of `t` at offset `pos`; and
the number of units they take. -/
def fill (s : LexState) (pos : Nat) (t : Text) : List PendingHeredoc → LexState × Nat
  | [] => ({ s with pending := [] }, 0)
  | h :: more =>
    let (body, taken, found) := h.body t.lines
    let content := TokenContent.string .heredoc (h.parts pos body)
    let filled : LexState :=
      { s with
        tokens := s.tokens.modify h.index fun token => { token with content := content }
        problems :=
          if found then s.problems
          else s.problems.push ⟨.openHeredoc h.opener.name, h.start⟩ }
    let (s, rest) := filled.fill (pos + taken) (t.drop taken) more
    (s, taken + rest)

/-- A string between quotes. One that is never closed is reported and ends with its line. -/
def string (s : LexState) (pos : Nat) (quote : CodeUnit) (rest : Text) : LexState × Nat :=
  let interpolates := quote != '\x27'
  let read := Quoted.ofText (.quotes quote interpolates) (pos + 1) rest
  if read.closed then
    let flavor :=
      if quote = '\x27' then Flavor.single else if quote = '\x60' then .backtick else .double
    s.push pos (quote :: rest) ⟨.string flavor read.parts, read.length + 1⟩
  else
    let line := rest.firstLine
    let cut := Quoted.ofText (.body interpolates) (pos + 1) line
    let flavor := if quote = '\x27' then Flavor.single else .double
    let s := { s with problems := s.problems.push ⟨.openString quote, pos⟩ }
    s.push pos (quote :: rest) ⟨.string flavor cut.parts, line.length + 1⟩

/-- A heredoc opener: its token is placed, and its body is awaited. -/
def heredoc (s : LexState) (pos : Nat) (t : Text) (opener : Lexeme.HeredocOpener) :
    LexState × Nat :=
  let awaited : PendingHeredoc := ⟨opener, pos, s.tokens.size⟩
  let s := { s with pending := s.pending ++ [awaited] }
  s.push pos t ⟨.string .heredoc [], opener.length⟩

/-- The lexeme at `c :: rest`, which is no blank, comment or newline. -/
def lexeme (s : LexState) (pos : Nat) (c : CodeUnit) (rest : Text) : LexState × Nat :=
  let t := c :: rest
  let opener := if s.isShift then none else Lexeme.heredoc? t
  let literal :=
    if c = '%' ∧ s.inValuePosition rest.head? then Lexeme.percent? pos t
    else if c = '/' ∧ s.inValuePosition rest.head? then Lexeme.regex? t
    else if c = ':' ∧ rest.head? ≠ some ':' then Lexeme.symbol? pos t
    else none
  if c = '\x27' ∨ c = '\x22' ∨ c = '\x60' then s.string pos c rest
  else match opener with
    | some opener => s.heredoc pos t opener
    | none =>
      s.push pos t <| literal.getD <|
        if c.isDigit then Lexeme.number t
        else if c = '@' ∨ c = '$' then Lexeme.sigilName t
        else if c.isIdentStart then Lexeme.word s.afterDot t
        else Lexeme.punct t

/-- The offset, from the start of `t`, of the first place where `pattern` stands. -/
def find? (pattern : Text) : Text → Option Nat
  | [] => if pattern = [] then some 0 else none
  | c :: rest => if pattern.isPrefixOf (c :: rest) then some 0 else (find? pattern rest).map (· + 1)

/-- The length of the comment block at the start of `t`, which must stand at a line start: from
`=begin` to the end of the line of its `=end`, or of the text. -/
def commentBlock? (t : Text) : Option Nat :=
  if ("=begin" : Text).isPrefixOf t && ((t.drop 6).head?.all CodeUnit.isSpace) then
    some <| match find? "\n=end" t with
      | some n => n + 1 + (Text.firstLine (t.drop (n + 1))).length
      | none => t.length
  else none

/-- Whether the line that starts `t`, at a line start, ends the program. -/
def isEndMark (t : Text) : Bool :=
  ("__END__" : Text).isPrefixOf t && (Text.trim (t.firstLine.drop 7)).isEmpty

/-- Whether a backslash stands at the end of a line. -/
def isContinuation (c : CodeUnit) (rest : Text) : Bool :=
  c == '\\' && (("\n" : Text).isPrefixOf rest || ("\r\n" : Text).isPrefixOf rest)

/-- One step of the scan at `c :: rest`; and how many units of `rest` it takes. -/
def step (s : LexState) (pos : Nat) (c : CodeUnit) (rest : Text) : LexState × Nat :=
  match if s.atLineStart then commentBlock? (c :: rest) else none with
  | some n => (s, n - 1)
  | none =>
    if s.atLineStart && isEndMark (c :: rest) then (s, rest.length)
    else if c = ' ' ∨ c = '\t' ∨ c = '\r' then ({ s with spaced := true, atLineStart := false }, 0)
    else if isContinuation c rest then ({ s with spaced := true }, rest.firstLine.length + 1)
    else if c = '#' then (s, rest.firstLine.length)
    else if c = '\n' then
      let token : Token := ⟨.newline, pos, pos + 1, "\n", false⟩
      let s := { s with tokens := s.tokens.push token, spaced := false, atLineStart := true }
      s.fill (pos + 1) rest s.pending
    else { s with atLineStart := false }.lexeme pos c rest

/-- The scan of a text that starts at offset `pos`; `skip` is the number of units already taken. -/
def scan : (pos skip : Nat) → LexState → Text → LexState
  | pos, _, s, [] => (s.fill pos [] s.pending).1
  | pos, skip + 1, s, _ :: rest => scan (pos + 1) skip s rest
  | pos, 0, s, c :: rest =>
    let (s, taken) := s.step pos c rest
    scan (pos + 1) taken s rest

end LexState

/-- The tokens of a text whose first unit has offset `base`. -/
def lex (text : Text) (base : Nat) : Lexed :=
  let s := LexState.scan base 0 .start text
  ⟨s.tokens.toList, s.problems.toList⟩

/-- The tokens of a text without the ends of its lines. -/
def lexInline (text : Text) (base : Nat) : List Token :=
  (lex text base).tokens.filter (!·.isNewline)

end Cookbook
