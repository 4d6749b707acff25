import Cookbook.Text.Basic

/-!
Classes of code units: digits, letters, the units of identifiers, and white space. Identifiers take
every unit outside ASCII, so the halves of a surrogate pair stay together; white space is the class
that trimming and `\s` share.
-/

namespace Cookbook

namespace CodeUnit

def isDigit (c : CodeUnit) : Bool := 0x30 ≤ c && c ≤ 0x39

def isUpper (c : CodeUnit) : Bool := 0x41 ≤ c && c ≤ 0x5A

def isLower (c : CodeUnit) : Bool := 0x61 ≤ c && c ≤ 0x7A

def isLetter (c : CodeUnit) : Bool := c.isUpper || c.isLower

def isHexDigit (c : CodeUnit) : Bool :=
  c.isDigit || (0x41 ≤ c && c ≤ 0x46) || (0x61 ≤ c && c ≤ 0x66)

/-- An ASCII letter or an underscore. -/
def isNameStart (c : CodeUnit) : Bool := c.isLetter || c == '_'

/-- An ASCII letter, a digit or an underscore. -/
def isNameUnit (c : CodeUnit) : Bool := c.isNameStart || c.isDigit

/-- A unit that may start an identifier: a name start, or anything outside ASCII. -/
def isIdentStart (c : CodeUnit) : Bool := c.isNameStart || 0x80 ≤ c

/-- A unit that may continue an identifier. -/
def isIdentUnit (c : CodeUnit) : Bool := c.isIdentStart || c.isDigit

/-- White space: the ASCII blanks and line ends, and the spaces, separators and the byte order mark
outside ASCII. -/
def isSpace (c : CodeUnit) : Bool :=
  (0x09 ≤ c && c ≤ 0x0D) || c == 0x20 || c == 0xA0 || c == 0x1680 ||
  (0x2000 ≤ c && c ≤ 0x200A) || c == 0x2028 || c == 0x2029 || c == 0x202F || c == 0x205F ||
  c == 0x3000 || c == 0xFEFF

end CodeUnit

namespace Text

def trimStart (t : Text) : Text := t.dropWhile CodeUnit.isSpace

def trimEnd (t : Text) : Text := (t.reverse.dropWhile CodeUnit.isSpace).reverse

def trim (t : Text) : Text := t.trimStart.trimEnd

/-- The runs of units that are not white space. -/
def words (t : Text) : List Text := (t.split CodeUnit.isSpace).filter (!·.isEmpty)

/-- A name: an ASCII letter or underscore, then letters, digits and underscores. -/
def isName : Text → Bool
  | [] => false
  | c :: rest => c.isNameStart && rest.all CodeUnit.isNameUnit

/-- An octal spelling with a leading zero and at least one further digit, as file modes have. -/
def isFileMode : Text → Bool
  | c :: d :: rest => c == '0' && (d :: rest).all fun u => u.isDigit && u < '8'
  | _ => false

/-- At least one unit, and digits only. -/
def isDigits (t : Text) : Bool := !t.isEmpty && t.all CodeUnit.isDigit

/-- The value of a digit: `0` to `9`, then letters of either case from ten on. -/
def digitValue (c : CodeUnit) : Nat :=
  if c.isDigit then c.toNat - 0x30 else if c.isLower then c.toNat - 0x57 else c.toNat - 0x37

/-- The natural number of a run of digits in base `b`, most significant first. -/
def toNat (b : Nat) (digits : Text) : Nat := digits.foldl (fun n c => n * b + digitValue c) 0

end Text

end Cookbook
