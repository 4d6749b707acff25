import Cookbook.Token.Literal

/-!
Single lexemes. Each reader is given a text that starts with the lexeme in question and says what
token stands there and how long it is, or that none does.
-/

namespace Cookbook

/-- A lexeme: what it is, and the number of units it takes. -/
structure Lexeme where
  content : TokenContent
  length : Nat

namespace Lexeme

/-- The number of units at the start of a text that satisfy `p`. -/
def run (p : CodeUnit → Bool) (t : Text) : Nat := (t.takeWhile p).length

/-- A name token over the first `n` units, which are also its value. -/
def spelled (kind : NameKind) (t : Text) (n : Nat) : Lexeme := ⟨.name kind (t.take n), n⟩

/-! ### Numbers -/

/-- A digit or an underscore, which may group digits. -/
def isDigitUnit (c : CodeUnit) : Bool := c.isDigit || c == '_'

/-- The length of a `0x` or `0b` number with the given mark and digits; at least one digit. -/
def radixLength? (mark : Char) (digit : CodeUnit → Bool) : Text → Option Nat
  | z :: m :: rest =>
    let n := run (fun c => digit c || c == '_') rest
    if z = '0' ∧ (m = mark ∨ m = mark.toUpper) ∧ 0 < n then some (n + 2) else none
  | _ => none

/-- The length of a fraction: a point, a digit, and more digits. -/
def fractionLength : Text → Nat
  | p :: d :: rest => if p = '.' ∧ d.isDigit then 2 + run isDigitUnit rest else 0
  | _ => 0

/-- The length of an exponent: a mark, an optional sign, and at least one digit. -/
def exponentLength : Text → Nat
  | e :: rest =>
    let sign := match rest with
      | s :: _ => if s = '+' ∨ s = '-' then 1 else 0
      | [] => 0
    let n := run CodeUnit.isDigit (rest.drop sign)
    if (e = 'e' ∨ e = 'E') ∧ 0 < n then 1 + sign + n else 0
  | [] => 0

/-- The length of a decimal number: digits, a fraction, an exponent. -/
def decimalLength (t : Text) : Nat :=
  let whole := run isDigitUnit t
  let fraction := fractionLength (t.drop whole)
  whole + fraction + exponentLength (t.drop (whole + fraction))

/-- The number at the start of a text whose first unit is a digit. -/
def number (t : Text) : Lexeme :=
  let n := ((radixLength? 'x' CodeUnit.isHexDigit t).or
    (radixLength? 'b' (fun c => c == '0' || c == '1') t)).getD (decimalLength t)
  spelled .number t n

/-! ### Words and symbols -/

/-- An identifier with an optional `?` or `!` that no `=` follows. -/
def wordLength (t : Text) : Nat :=
  let n := run CodeUnit.isIdentUnit t
  match t.drop n with
  | m :: rest => if (m = '?' ∨ m = '!') ∧ rest.head? ≠ some '=' then n + 1 else n
  | [] => n

/-- Whether a text starts with a colon that no other colon follows. -/
def startsLabelColon : Text → Bool
  | c :: rest => c == ':' && rest.head? != some ':'
  | [] => false

/-- The word at the start of a text whose first unit may start an identifier: a label when a single
colon follows, else a keyword (never after a dot), a constant or an identifier. -/
def word (afterDot : Bool) (t : Text) : Lexeme :=
  let n := wordLength t
  let value := t.take n
  if startsLabelColon (t.drop n) && value.getLast? != some '?' then ⟨.name .label value, n + 1⟩
  else if keywords.contains value && !afterDot then spelled .keyword t n
  else if value.head?.any CodeUnit.isUpper then spelled .const t n
  else spelled .ident t n

/-- An instance, class or global variable: a sigil, perhaps a second at sign, and a name. -/
def sigilName (t : Text) : Lexeme :=
  let kind := if t.head? = some '@' then NameKind.instanceVar else .globalVar
  let sigils := if t.tail.head? = some '@' then 2 else 1
  spelled kind t (sigils + run CodeUnit.isIdentUnit (t.drop sigils))

/-- A plain symbol after its colon: an identifier, with a `?`, `!` or `=` unless `=` or `>` follows
that. -/
def symbolLength (t : Text) : Nat :=
  let n := run CodeUnit.isIdentUnit t
  match t.drop n with
  | m :: rest =>
    if (m = '?' ∨ m = '!' ∨ m = '=') ∧ rest.head? ≠ some '=' ∧ rest.head? ≠ some '>' then n + 1
    else n
  | [] => n

/-- The symbol at the start of a text whose first unit is a colon and whose second is none: quoted,
when its quote is closed, or plain. -/
def symbol? (pos : Nat) (t : Text) : Option Lexeme :=
  match t.tail with
  | [] => none
  | c :: rest =>
    if c = '\x22' ∨ c = '\x27' then
      let read := Quoted.ofText (.quotes c (c == '\x22')) (pos + 2) rest
      if read.closed then some ⟨.string .symbol read.parts, read.length + 2⟩ else none
    else if c.isIdentStart then
      let n := symbolLength (c :: rest)
      some ⟨.name .symbol ((c :: rest).take n), n + 1⟩
    else none

/-! ### Percent literals and regular expressions -/

/-- A letter that may follow a regular expression. -/
def isRegexFlag (c : CodeUnit) : Bool := c == 'i' || c == 'm' || c == 'x' || c == 'o'

/-- The length of a regular expression after its opening slash, with the closing slash; it ends on
its line, and a slash between square brackets does not close it. -/
def regexLength? (inClass : Bool) : Text → Option Nat
  | [] => none
  | c :: rest =>
    if c = '\n' then none
    else if c = '\\' then
      match rest with
      | [] => none
      | d :: rest => if d = '\n' then none else (regexLength? inClass rest).map (· + 2)
    else if c = '/' ∧ !inClass then some 1
    else
      let inClass := if c = '[' then true else if c = ']' then false else inClass
      (regexLength? inClass rest).map (· + 1)

/-- The regular expression at the start of a text whose first unit is a slash. -/
def regex? (t : Text) : Option Lexeme :=
  (regexLength? false t.tail).map fun n => ⟨.regex, n + 1 + run isRegexFlag (t.drop (n + 1))⟩

/-- The delimiter that closes what `c` opens. -/
def closerOf (c : CodeUnit) : CodeUnit :=
  if c = '(' then ')' else if c = '[' then ']' else if c = '\x7b' then '\x7d'
  else if c = '<' then '>' else c

/-- The percent literal with the given kind letter, whose opening delimiter is the first unit of
`rest`, `lead` units after the start of the literal at `pos`. -/
def percentBody? (letter : Option CodeUnit) (pos lead : Nat) (rest : Text) : Option Lexeme :=
  match rest with
  | [] => none
  | opener :: body =>
    if opener.isLetter || opener.isDigit || opener.isSpace then none
    else
      let is (c : Char) : Bool := letter == some (c : CodeUnit)
      let listed := is 'w' || is 'W' || is 'i' || is 'I'
      let interpolates := !(listed || is 'r' || is 'q')
      let quoting : Quoting := ⟨some opener, some (closerOf opener), interpolates⟩
      let read := Quoted.ofText quoting (pos + lead + 1) body
      let length := lead + 1 + read.length
      if !read.closed then none
      else if listed then
        some ⟨.words (((StringPart.plain? read.parts).getD []).words) (is 'i' || is 'I'), length⟩
      else if is 'r' then some ⟨.regex, length + run isRegexFlag (body.drop read.length)⟩
      else some ⟨.string .percent read.parts, length⟩

/-- The letters that may follow the percent sign of a literal. -/
def percentLetters : Text := "wWiIqQr"

/-- The percent literal at the start of a text whose first unit is a percent sign. -/
def percent? (pos : Nat) (t : Text) : Option Lexeme :=
  match t.tail with
  | [] => none
  | c :: rest =>
    if c.isLetter then if percentLetters.contains c then percentBody? (some c) pos 2 rest else none
    else percentBody? none pos 1 (c :: rest)

/-! ### Heredoc openers -/

/-- The opener of a heredoc: its name, the mark before it, and whether its body interpolates. -/
structure HeredocOpener where
  name : Text
  squiggly : Bool
  indented : Bool
  interpolates : Bool
  length : Nat

/-- A name that may open a heredoc without a mark or quotes: capitals, digits and underscores. -/
def isBareHeredocName : Text → Bool
  | [] => false
  | c :: rest => (c.isUpper || c == '_') && rest.all fun u => u.isUpper || u.isDigit || u == '_'

/-- The heredoc opener at the start of a text: `<<`, an optional `~` or `-`, and a name that may be
quoted; a bare name must be in capitals. -/
def heredoc? (t : Text) : Option HeredocOpener :=
  match t with
  | a :: b :: rest =>
    if a = '<' ∧ b = '<' then
      let mark := rest.head?.filter fun (c : CodeUnit) => c == '~' || c == '-'
      let rest := if mark.isSome then rest.tail else rest
      let quote := rest.head?.filter fun (c : CodeUnit) => c == '\x22' || c == '\x27' || c == '\x60'
      let rest := if quote.isSome then rest.tail else rest
      let n := if rest.head?.any CodeUnit.isNameStart then run CodeUnit.isNameUnit rest else 0
      let name := rest.take n
      let marks := (if mark.isSome then 1 else 0) + (if quote.isSome then 2 else 0)
      if n = 0 then none
      else if quote.isSome ∧ (rest.drop n).head? ≠ quote then none
      else if mark.isNone ∧ quote.isNone ∧ !isBareHeredocName name then none
      else some ⟨name, mark == some '~', mark == some '-', quote != some '\x27', 2 + marks + n⟩
    else none
  | _ => none

/-! ### Punctuators -/

/-- The punctuators of more than one unit, longest first. -/
def punctuators : List Text :=
  ["**=", "<=>", "===", "...", "<<=", ">>=", "&&=", "||=", "==", "!=", ">=", "<=", "&&", "||",
   "<<", ">>", "=~", "!~", "=>", "->", "::", "..", "+=", "-=", "*=", "/=", "%=", "|=", "&=", "**",
   "&."].map Text.ofString

/-- The punctuator at the start of a text; any other unit is one by itself. -/
def punct (t : Text) : Lexeme :=
  spelled .punct t (((punctuators.find? fun p => p.isPrefixOf t).map List.length).getD 1)

end Lexeme

end Cookbook
