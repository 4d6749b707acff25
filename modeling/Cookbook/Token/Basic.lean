import Cookbook.Text.Class

/-!
Tokens of the recipe language. A token keeps where it stands, how it is spelled and whether blanks
come before it; what it means is its content: a name with a value, a string literal cut into text
and code, a list of words, a regular expression, or the end of a line.
-/

namespace Cookbook

/-- A piece of a string literal: plain text, or the code of an interpolation with the offset it
starts at. -/
inductive StringPart where
  | text (value : Text)
  | code (source : Text) (offset : Nat)
deriving DecidableEq

/-- The kinds of token that carry one value. -/
inductive NameKind where
  | ident | const | instanceVar | globalVar | keyword | punct | label | symbol | number
deriving DecidableEq

/-- How a string literal is written. -/
inductive Flavor where
  | single | double | heredoc | percent | backtick | symbol
deriving DecidableEq

/-- What a token is. -/
inductive TokenContent where
  | name (kind : NameKind) (value : Text)
  | string (flavor : Flavor) (parts : List StringPart)
  | words (words : List Text) (symbols : Bool)
  | regex
  | newline
deriving DecidableEq

/-- A token with its place `[start, stop)`, its spelling, and whether blanks come before it. -/
structure Token where
  content : TokenContent
  start : Nat
  stop : Nat
  text : Text
  spaceBefore : Bool
deriving DecidableEq

/-- The text of a string literal without code; `none` when it has code. -/
def StringPart.plain? : List StringPart → Option Text
  | [] => some []
  | .text value :: rest => (plain? rest).map (value ++ ·)
  | .code _ _ :: _ => none

namespace Token

def valueOf? (t : Token) (kind : NameKind) : Option Text :=
  match t.content with
  | .name k value => if k = kind then some value else none
  | _ => none

def isKind (t : Token) (kind : NameKind) : Bool := (t.valueOf? kind).isSome

/-- Whether the token is of the given kind with one of the given values. -/
def isOneOf (t : Token) (kind : NameKind) (values : List Text) : Bool :=
  match t.content with
  | .name k value => k == kind && values.contains value
  | _ => false

def isPunct (t : Token) (values : List Text) : Bool := t.isOneOf .punct values

def isKeyword (t : Token) (words : List Text) : Bool := t.isOneOf .keyword words

def isIdent (t : Token) (names : List Text) : Bool := t.isOneOf .ident names

def isNewline (t : Token) : Bool := t.content == .newline

def isOpener (t : Token) : Bool := t.isPunct ["(", "[", "\x7b"]

def isCloser (t : Token) : Bool := t.isPunct [")", "]", "\x7d"]

def isSeparator (t : Token) : Bool := t.isNewline || t.isPunct [";"]

/-- The text of a string literal without code. -/
def plain? (t : Token) : Option Text :=
  match t.content with
  | .string _ parts => StringPart.plain? parts
  | _ => none

end Token

def keywords : List Text :=
  ["alias", "and", "begin", "break", "case", "class", "def", "defined?", "do", "else", "elsif",
   "end", "ensure", "false", "for", "if", "in", "module", "next", "nil", "not", "or", "redo",
   "rescue", "retry", "return", "self", "super", "then", "true", "undef", "unless", "until",
   "when", "while", "yield"].map Text.ofString

/-- The stretch of `text` that a run of tokens covers, with all that stands between them. -/
def sourceOf (text : Text) (run : List Token) : Text :=
  match run.head?, run.getLast? with
  | some first, some last => text.slice first.start last.stop
  | _, _ => []

end Cookbook
