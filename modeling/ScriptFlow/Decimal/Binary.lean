/-! Binary floating point numbers, held exactly. A finite number is a sign and a magnitude
`mantissa * 2 ^ exponent`; a 64-bit one has a mantissa below `2 ^ 53` that fills all 53 bits unless
the exponent is the least one. -/

namespace ScriptFlow.Decimal

inductive Binary where
  | nan
  | infinite (negative : Bool)
  | finite (negative : Bool) (mantissa : Nat) (exponent : Int)
  deriving DecidableEq, Repr

namespace Binary

/-- Bits of a 64-bit mantissa, and its least and greatest exponent. -/
def precision : Nat := 53
def leastExponent : Int := -1074
def greatestExponent : Int := 971

/-- Widen a mantissa to full precision as far as the least exponent allows. -/
def normalize (negative : Bool) (mantissa : Nat) (exponent : Int) : Binary :=
  if mantissa = 0 then finite negative 0 leastExponent
  else
    let spare := precision - (mantissa.log2 + 1)
    let room := (exponent - leastExponent).toNat
    let shift := min spare room
    finite negative (mantissa * Nat.pow 2 shift) (exponent - shift)

/-- The number a 32-bit pattern stands for, as a 64-bit number of the same value. -/
def ofSingle (bits : Nat) : Binary :=
  let negative := bits / 0x80000000 % 2 == 1
  let biased : Nat := bits / 0x800000 % 0x100
  let fraction : Nat := bits % 0x800000
  if biased = 255 then (if fraction = 0 then infinite negative else nan)
  else if biased = 0 then normalize negative fraction (-149)
  else normalize negative (fraction + 0x800000) ((biased : Int) - 150)

/-- `num / den` rounded to the nearest integer, a half to the even one. -/
def roundDiv (num den : Nat) : Nat :=
  let q := num / den
  let r := num % den
  if 2 * r < den then q
  else if 2 * r > den then q + 1
  else if q % 2 = 0 then q else q + 1

/-- The largest power of two not above a positive quotient, by its exponent. -/
def quotientLog2 (num den : Nat) : Int :=
  let guess : Int := (num.log2 : Int) - den.log2
  let fits :=
    if 0 ≤ guess then den * Nat.pow 2 guess.toNat ≤ num else den ≤ num * Nat.pow 2 (-guess).toNat
  if fits then guess else guess - 1

/-- The 64-bit number nearest to a positive quotient, a tie to the even mantissa. -/
def ofQuotient (negative : Bool) (num den : Nat) : Binary :=
  let exponent := max leastExponent (quotientLog2 num den - (precision - 1))
  let mantissa :=
    if 0 ≤ exponent then roundDiv num (den * Nat.pow 2 exponent.toNat)
    else roundDiv (num * Nat.pow 2 (-exponent).toNat) den
  let (mantissa, exponent) :=
    if mantissa = Nat.pow 2 precision then (Nat.pow 2 (precision - 1), exponent + 1)
    else (mantissa, exponent)
  if mantissa = 0 then finite negative 0 leastExponent
  else if exponent > greatestExponent then infinite negative
  else finite negative mantissa exponent

/-- The 64-bit number nearest to `digits * 10 ^ exponent`. Far outside the range of the format the
answer is known without a calculation. -/
def ofDecimal (negative : Bool) (digits : Nat) (exponent : Int) : Binary :=
  if digits = 0 then finite negative 0 leastExponent
  else
    let magnitude : Int := (Nat.toDigits 10 digits).length + exponent
    if magnitude > 400 then infinite negative
    else if magnitude < -400 then finite negative 0 leastExponent
    else if 0 ≤ exponent then ofQuotient negative (digits * Nat.pow 10 exponent.toNat) 1
    else ofQuotient negative digits (Nat.pow 10 (-exponent).toNat)

def isZero : Binary → Bool
  | finite _ mantissa _ => mantissa == 0
  | _ => false

end Binary

end ScriptFlow.Decimal
