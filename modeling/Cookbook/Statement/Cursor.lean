import Cookbook.Statement.Basic

/-!
Reading runs of tokens: a cursor over the tokens of a file, the run up to the end of a line, block
parameters, and the places at which reading may resume after something was left open.
-/

namespace Cookbook

/-- A place among the tokens of a file: the index of the next token, and the tokens from there on.
The index may go one past the end. -/
structure Cursor where
  index : Nat
  rest : List Token

namespace Cursor

def at' (tokens : List Token) (index : Nat) : Cursor := ⟨index, tokens.drop index⟩

def advance (c : Cursor) (n : Nat) : Cursor := ⟨c.index + n, c.rest.drop n⟩

def next (c : Cursor) : Cursor := c.advance 1

/-- The cursor after the separators that stand next. -/
def skipSeparators (c : Cursor) : Cursor := c.advance (c.rest.takeWhile Token.isSeparator).length

end Cursor

/-! ### Lines -/

/-- The punctuators after which a line goes on. -/
def continuations : List Text :=
  [",", "&&", "||", "+", "-", "*", "/", "=", "==", "!=", "=>", ".", "&.", "?", ":", "<<", "+=",
   "-=",    "||=", "&&=", "=~", "\\"].map Text.ofString

def Token.continuesLine (t : Token) : Bool :=
  t.isPunct continuations || t.isKeyword ["and", "or", "not"]

/-- The run up to the end of a line, and the number of tokens taken. Inside brackets a line does not
end, nor after a token that leaves it unfinished; `then`, and `do` where it may open a loop, end it
and are taken. `last` is the last token of the run so far, `depth` the number of open brackets. -/
def lineRun (stopAtDo : Bool) (last : Option Token) (depth : Nat) : List Token → List Token × Nat
  | [] => ([], 0)
  | t :: rest =>
    if depth = 0 ∧ t.isSeparator then
      if last.any Token.continuesLine then
        let (run, n) := lineRun stopAtDo last depth rest
        (run, n + 1)
      else ([], 0)
    else if depth = 0 ∧ (t.isKeyword ["then"] ∨ (stopAtDo ∧ t.isKeyword ["do"])) then ([], 1)
    else
      let depth := if t.isOpener then depth + 1 else if t.isCloser then depth - 1 else depth
      if t.isNewline then
        let (run, n) := lineRun stopAtDo last depth rest
        (run, n + 1)
      else
        let (run, n) := lineRun stopAtDo (some t) depth rest
        (t :: run, n + 1)

/-- The run up to the end of the line at the cursor, and the cursor after it. -/
def Cursor.line (c : Cursor) (stopAtDo : Bool) : List Token × Cursor :=
  let (run, n) := lineRun stopAtDo none 0 c.rest
  (run, c.advance n)

/-- The parameters of the block whose body starts at the cursor, and the cursor after them. -/
def Cursor.params (c : Cursor) : List Text × Cursor :=
  match c.rest with
  | [] => ([], c)
  | t :: rest =>
    if t.isPunct ["||"] then ([], c.next)
    else if t.isPunct ["|"] then
      let inner := rest.takeWhile fun t => !t.isPunct ["|"]
      (inner.filterMap (·.valueOf? .ident), c.advance (inner.length + 2))
    else ([], c)

/-! ### Where reading resumes -/

/-- What a parser needs of a file: its tokens and its lines. -/
structure TokenSource where
  tokens : List Token
  lines : LineIndex

namespace TokenSource

def size (src : TokenSource) : Nat := src.tokens.length

def cursor (src : TokenSource) (index : Nat) : Cursor := Cursor.at' src.tokens index

/-- Whether the token at an index is the first of its line. -/
def isFirstOnLine (src : TokenSource) (index : Nat) : Bool :=
  index == 0 || (src.tokens[index - 1]?).all Token.isNewline

/-- Whether a token after `opener` stands at or left of the indentation of its line. -/
def isOutdented (src : TokenSource) (opener t : Token) : Bool :=
  opener.start < t.start && src.lines.indent t.start ≤ src.lines.indent opener.start

/-- Whether a statement after an opener that was never closed is where reading resumes: it starts a
line at or left of the opener's indentation. -/
def resumesAt (src : TokenSource) (opener : Token) (s : Statement) : Bool :=
  match src.tokens[s.extent.firstIndex]? with
  | some first => src.isOutdented opener first && src.isFirstOnLine s.extent.firstIndex
  | none => false

/-- The statements of a body that was never closed, up to the one where reading resumes; and the
index of that one's first token. -/
def resync (src : TokenSource) (opener : Token) (body : List Statement) :
    List Statement × Option Nat :=
  (body.takeWhile fun s => !src.resumesAt opener s,
   (body.find? (src.resumesAt opener)).map (·.extent.firstIndex))

/-- The index of the first token, from `index` on, that starts a line at or left of the opener's
indentation and closes nothing; the number of tokens when there is none. -/
def resyncToken (src : TokenSource) (opener : Token) (index : Nat) : Nat :=
  let resumes (k : Nat) : Bool :=
    match src.tokens[k]? with
    | some t =>
      !t.isNewline && src.isFirstOnLine k && src.isOutdented opener t &&
        !(t.isKeyword ["end"] || t.isCloser)
    | none => false
  ((List.range' index (src.size - index)).find? resumes).getD src.size

/-- The end of the last token before an index that is no newline. -/
def endBefore (src : TokenSource) (index fallback : Nat) : Nat :=
  match (src.tokens.take index).reverse.find? fun t => !t.isNewline with
  | some t => t.stop
  | none => fallback

end TokenSource

end Cookbook
