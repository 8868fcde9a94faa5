import FlowSched.Number.Shortest
import FlowSched.Text.Layout

/-!
# The text of a double

Two forms: the shortest decimal that reads back, and a fixed number of decimal places.
-/

namespace FlowSched.Text

/-- Whether a shortest decimal with its point after `place` digits is written without exponent:
from `0.0001` to below ten quadrillion. -/
def isPositional (place : Int) : Bool := -4 < place && place ≤ 16

/-- Digits with a decimal point after `place` of them, and at least one digit on either side. -/
def positional (digits : List Char) (place : Int) : List Char :=
  if place ≤ 0 then ['0', '.'] ++ List.replicate (-place).toNat '0' ++ digits
  else
    let whole := digits.take place.toNat
    let part := digits.drop place.toNat
    whole ++ List.replicate (place.toNat - whole.length) '0' ++
      '.' :: (if part.isEmpty then ['0'] else part)

/-- Digits with the point after the first and a signed exponent of at least two digits. -/
def scientific (digits : List Char) (place : Int) : List Char :=
  let exponent := place - 1
  let size := (toString exponent.natAbs).toList
  let head := digits.take 1
  let part := digits.drop 1
  head ++ (if part.isEmpty then [] else '.' :: part) ++
    'e' :: (if exponent < 0 then '-' else '+') ::
    (List.replicate (2 - size.length) '0' ++ size)

/-- The shortest text that reads back as the same double. -/
def shortest (x : Float) : String :=
  match Reading.ofFloat x with
  | .nan => "nan"
  | .infinite negative => if negative then "-inf" else "inf"
  | .finite negative mantissa exponent =>
    let d := Decimal.shortest mantissa exponent
    let digits := (toString d.digits).toList
    let place := if d.digits = 0 then 1 else (digits.length : Int) + d.exponent
    let body := if isPositional place then positional digits place else scientific digits place
    String.ofList (if negative then '-' :: body else body)

/-- The exact value rounded to a number of decimal places, a tie going to the even digit. The sign
is kept also where only zeros are left. -/
def fixed (places : Nat) (x : Float) : String :=
  match Reading.ofFloat x with
  | .nan => "nan"
  | .infinite negative => if negative then "-inf" else "inf"
  | .finite negative mantissa exponent =>
    let (num, den) := Reading.fraction mantissa exponent
    let scaled := roundDiv (num * tenTo places) den
    let whole := toString (scaled / tenTo places)
    let part := toString (scaled % tenTo places)
    let zeros := String.ofList (List.replicate (places - part.length) '0')
    let sign := if negative then "-" else ""
    if places = 0 then sign ++ whole else sign ++ whole ++ "." ++ zeros ++ part

/-- A length of time that may be endless, with fixed places. -/
def fixed? (places : Nat) : Option Float → String
  | none => "inf"
  | some x => fixed places x

end FlowSched.Text
