import Cookbook.Number.Basic
import Cookbook.Text.Class

/-!
Reading a number: white space around it is ignored, nothing at all reads as zero, and what is left
is a hexadecimal, octal or binary integer, or a decimal with an optional sign, fraction and
exponent. Spellings of no finite value are refused.
-/

namespace Cookbook

namespace Number

/-- The base a two-unit start announces. -/
def radix? : CodeUnit → Option Nat
  | c => if c = 'x' ∨ c = 'X' then some 16
    else if c = 'o' ∨ c = 'O' then some 8
    else if c = 'b' ∨ c = 'B' then some 2
    else none

/-- An integer in the given base; at least one digit, and no other unit. -/
def ofDigits? (base : Nat) (digits : Text) : Option Number :=
  if !digits.isEmpty && digits.all fun c => c.isHexDigit && Text.digitValue c < base then
    nearest? (Text.toNat base digits : Nat)
  else none

/-- The sign a text starts with, and the rest. -/
def takeSign : Text → Bool × Text
  | c :: rest =>
    if c = '-' then (true, rest) else if c = '+' then (false, rest) else (false, c :: rest)
  | [] => (false, [])

/-- The exponent part: absent, or a mark, an optional sign and at least one digit. -/
def exponent? : Text → Option Int
  | [] => some 0
  | mark :: rest =>
    let (negative, digits) := takeSign rest
    if (mark = 'e' ∨ mark = 'E') ∧ digits.isDigits then
      some (if negative then -(Text.toNat 10 digits : Int) else (Text.toNat 10 digits : Int))
    else none

/-- An unsigned decimal: digits on at least one side of an optional point, then an exponent. -/
def ofDecimal? (t : Text) : Option Number :=
  let whole := t.takeWhile CodeUnit.isDigit
  let rest := t.dropWhile CodeUnit.isDigit
  let (fraction, rest) := match rest with
    | c :: after =>
      if c = '.' then (after.takeWhile CodeUnit.isDigit, after.dropWhile CodeUnit.isDigit)
      else ([], rest)
    | [] => ([], [])
  if whole.isEmpty && fraction.isEmpty then none
  else do
    let e ← exponent? rest
    ofScientific? (Text.toNat 10 (whole ++ fraction)) (e - fraction.length)

def ofSigned? (t : Text) : Option Number :=
  let (negative, rest) := takeSign t
  (ofDecimal? rest).map fun n => if negative then -n else n

/-- The number a text spells; `none` when it spells none, or none that is finite. -/
def ofText? (t : Text) : Option Number :=
  match t.trim with
  | [] => some 0
  | c :: mark :: rest =>
    match if c = '0' then radix? mark else none with
    | some base => ofDigits? base rest
    | none => ofSigned? (c :: mark :: rest)
  | other => ofSigned? other

end Number

end Cookbook
