/-!
Numbers: a literal holds a finite binary64 value, kept as the exact rational it denotes. Nothing
computes with numbers; they are read, compared with the integers and written, so rounding happens
once, when a spelling is read.
-/

namespace Cookbook

/-- A finite binary64 value as an exact rational; zero has no sign. -/
abbrev Number := Rat

namespace Number

def twoPow (e : Int) : Rat :=
  if 0 ≤ e then (Nat.pow 2 e.toNat : Nat) else mkRat 1 (Nat.pow 2 (-e).toNat)

def tenPow (e : Int) : Rat :=
  if 0 ≤ e then (Nat.pow 10 e.toNat : Nat) else mkRat 1 (Nat.pow 10 (-e).toNat)

/-- The nearest integer, a half going to the even neighbour. -/
def roundEven (r : Rat) : Int :=
  let below := r.floor
  let rest := r - below
  if rest < mkRat 1 2 then below
  else if mkRat 1 2 < rest then below + 1
  else if below % 2 = 0 then below else below + 1

/-- The exponent of the greatest power of two that is at most the size of a non-zero rational. -/
def binaryExponent (r : Rat) : Int :=
  let size := r.num.natAbs
  let estimate : Int := (size.log2 : Int) - (r.den.log2 : Int)
  if twoPow estimate * r.den ≤ size then estimate else estimate - 1

/-- The binary64 value nearest to a rational, a tie going to the even significand: 53 significant
bits, no bit below `2 ^ (-1074)`, and nothing at or beyond `2 ^ 1024`. -/
def nearest? (r : Rat) : Option Number :=
  if r = 0 then some 0
  else
    let quantum := twoPow (max (binaryExponent r - 52) (-1074))
    let value := roundEven (r / quantum) * quantum
    if value < twoPow 1024 ∧ -twoPow 1024 < value then some value else none

/-- The value nearest to `digits * 10 ^ exponent`. Sizes far outside the range are told by the count
of digits alone, so no power is computed for them. -/
def ofScientific? (digits : Nat) (exponent : Int) : Option Number :=
  if digits = 0 then some 0
  else
    let magnitude := ((Nat.toDigits 10 digits).length : Int) + exponent
    if 400 < magnitude then none
    else if magnitude < -400 then some 0
    else nearest? (digits * tenPow exponent)

def isInteger (n : Number) : Bool := n.den == 1

/-- The greatest integer up to which every integer is a binary64 value of its own: `2 ^ 53 - 1`. -/
def maxSafe : Nat := 9007199254740991

/-- Whether the value is an integer of at most 53 bits. -/
def isSafeInteger (n : Number) : Bool := n.isInteger && n.num.natAbs ≤ maxSafe

end Number

end Cookbook
