import Cookbook.Number.Basic
import Cookbook.Text.Basic

/-!
The text of a number: the fewest decimal digits that read back as the value, and of those the
nearest, laid out without an exponent from `10 ^ (-6)` up to, not including, `10 ^ 21`.
-/

namespace Cookbook

namespace Number

/-- A positive decimal: the significant digits as one natural number without trailing zeros, and
the place of the point: the value is `0.digits * 10 ^ point`. -/
structure Decimal where
  digits : Nat
  point : Int

/-- The place of the point of a positive rational: the least `n` with `r < 10 ^ n`. -/
def decimalPoint (r : Rat) : Int :=
  let digits (n : Nat) : Int := (Nat.toDigits 10 n).length
  let estimate := digits r.num.natAbs - digits r.den
  if r < tenPow estimate then estimate else estimate + 1

/-- The decimal of `count` digits that reads back as `r`: of the two neighbours on that grid the
nearer one, the even one when they are equally near. -/
def candidate? (r : Rat) (point : Int) (count : Nat) : Option Nat :=
  let place := tenPow (point - count)
  let low := (r / place).floor.toNat
  let reads (digits : Nat) : Bool := nearest? (digits * place) == some r
  match reads low, reads (low + 1) with
  | true, false => some low
  | false, true => some (low + 1)
  | false, false => none
  | true, true =>
    let below := r - low * place
    let above := (low + 1 : Nat) * place - r
    if below < above then some low
    else if above < below then some (low + 1)
    else if low % 2 = 0 then some low else some (low + 1)

/-- The shortest decimal of a positive binary64 value; 17 digits always suffice. -/
def shortest (r : Rat) : Decimal :=
  let point := decimalPoint r
  match (List.range' 1 17).findSome? fun count => (candidate? r point count).map (·, count) with
  | some (digits, count) =>
    if digits = Nat.pow 10 count then ⟨1, point + 1⟩ else ⟨digits, point⟩
  | none => ⟨0, point⟩

/-- The layout of a decimal: positional while the point is at most 21 places to the right of the
first digit and at most 6 zeros to the left of it, with a signed exponent beyond. -/
def Decimal.text (d : Decimal) : Text :=
  let digits := Text.ofNat d.digits
  let count := digits.length
  let zeros (n : Nat) : Text := List.replicate n (CodeUnit.ofChar '0')
  if count ≤ d.point ∧ d.point ≤ 21 then digits ++ zeros (d.point.toNat - count)
  else if 0 < d.point ∧ d.point ≤ 21 then
    digits.take d.point.toNat ++ "." ++ digits.drop d.point.toNat
  else if -6 < d.point ∧ d.point ≤ 0 then "0." ++ zeros (-d.point).toNat ++ digits
  else
    let exponent := d.point - 1
    let sign : Text := if exponent < 0 then "-" else "+"
    let mantissa := if count = 1 then digits else digits.take 1 ++ "." ++ digits.drop 1
    mantissa ++ "e" ++ sign ++ Text.ofNat exponent.natAbs

def text (n : Number) : Text :=
  if n = 0 then "0" else if n < 0 then "-" ++ (shortest (-n)).text else (shortest n).text

end Number

end Cookbook
