import ScriptFlow.Decimal.Shortest
import ScriptFlow.Text.Hex

/-! How a floating point number is written. Between `10 ^ -4` and `10 ^ 16` the digits stand around a
point, with `.0` behind a whole number; elsewhere the exponent follows, signed and with at least two
digits. -/

namespace ScriptFlow.Decimal

/-- The decisions of a number format. -/
structure Layout where
  leastPositional : Int
  firstExponential : Int
  exponentDigits : Nat

/-- The format of constants in listings. -/
def Layout.constant : Layout := ⟨-4, 16, 2⟩

/-- Digits around a point that stands `place` digits into them. -/
def positional (ds : List Char) (place : Int) : List Char :=
  if place ≤ 0 then '0' :: '.' :: (List.replicate (-place).toNat '0' ++ ds)
  else
    let n := place.toNat
    if ds.length ≤ n then ds ++ List.replicate (n - ds.length) '0' ++ ['.', '0']
    else ds.take n ++ '.' :: ds.drop n

/-- One digit, the point, the other digits, and the exponent. -/
def exponential (width : Nat) (ds : List Char) (exponent : Int) : List Char :=
  let head := match ds with
    | [] => []
    | [d] => [d]
    | d :: rest => d :: '.' :: rest
  let sign := if exponent < 0 then '-' else '+'
  head ++ 'e' :: sign :: Text.padLeft width '0' (Nat.toDigits 10 exponent.natAbs)

def Layout.write (l : Layout) (s : Scientific) : List Char :=
  let ds := Nat.toDigits 10 s.digits
  let exponent : Int := (ds.length : Int) - 1 + s.exponent
  if l.leastPositional ≤ exponent ∧ exponent < l.firstExponential then positional ds (exponent + 1)
  else exponential l.exponentDigits ds exponent

def Layout.text (l : Layout) : Binary → String
  | .nan => "nan"
  | .infinite negative => if negative then "-inf" else "inf"
  | .finite negative mantissa exponent =>
    let sign := if negative then "-" else ""
    let body :=
      if mantissa = 0 then positional ['0'] 1 else l.write (shortest mantissa exponent)
    sign ++ String.ofList body

end ScriptFlow.Decimal
