import ScriptFlow.Decimal.Binary

/-! The fewest decimal digits that read back as a given 64-bit number. The reals that round to
`mantissa * 2 ^ exponent` form an interval around it; for one digit, two digits and so on the two
neighbours of the number on the decimal grid are tried, and the first grid with a hit wins. -/

namespace ScriptFlow.Decimal

/-- A decimal `digits * 10 ^ exponent`. -/
structure Scientific where
  digits : Nat
  exponent : Int
  deriving DecidableEq, Repr

/-- The interval of reals that round to a number: three numerators over one denominator. -/
structure Interval where
  low : Nat
  value : Nat
  high : Nat
  den : Nat
  closed : Bool

namespace Interval

/-- Half way to either neighbour; below a power of two the neighbour is closer. Both ends belong to
the interval when the mantissa is even. -/
def around (mantissa : Nat) (exponent : Int) : Interval :=
  let narrow := mantissa = Nat.pow 2 (Binary.precision - 1) ∧ exponent > Binary.leastExponent
  let below := if narrow then 1 else 2
  let scale := Nat.pow 2 (exponent - 2).toNat
  { low := (4 * mantissa - below) * scale
    value := 4 * mantissa * scale
    high := (4 * mantissa + 2) * scale
    den := Nat.pow 2 (2 - exponent).toNat
    closed := mantissa % 2 == 0 }

/-- The decimal `digits * 10 ^ exponent` rounds to the number. -/
def contains (i : Interval) (digits : Nat) (exponent : Int) : Bool :=
  let x := digits * Nat.pow 10 exponent.toNat * i.den
  let s := Nat.pow 10 (-exponent).toNat
  if i.closed then i.low * s ≤ x && x ≤ i.high * s else i.low * s < x && x < i.high * s

/-- The number divided by a power of ten, rounded down, with twice the remainder's order to a half:
less, equal or greater. -/
def grid (i : Interval) (exponent : Int) : Nat × Ordering :=
  let num := i.value * Nat.pow 10 (-exponent).toNat
  let den := i.den * Nat.pow 10 exponent.toNat
  (num / den, compare (2 * (num % den)) den)

/-- The neighbour on a grid that is in the interval, the nearer of two, the even one at a tie. -/
def neighbour? (i : Interval) (exponent : Int) : Option Nat :=
  let (d, side) := i.grid exponent
  match i.contains d exponent && d != 0, i.contains (d + 1) exponent with
  | false, false => none
  | true, false => some d
  | false, true => some (d + 1)
  | true, true =>
    match side with
    | .lt => some d
    | .gt => some (d + 1)
    | .eq => if d % 2 = 0 then some d else some (d + 1)

/-- Try ever finer grids. -/
def search (i : Interval) : Nat → Int → Scientific
  | 0, exponent => ⟨(i.grid exponent).1, exponent⟩
  | fuel + 1, exponent =>
    match i.neighbour? exponent with
    | some d => ⟨d, exponent⟩
    | none => search i fuel (exponent - 1)

end Interval

/-- Move trailing zeros of the digits into the exponent. -/
def Scientific.strip : Nat → Scientific → Scientific
  | 0, s => s
  | fuel + 1, s =>
    if s.digits ≠ 0 ∧ s.digits % 10 = 0 then strip fuel ⟨s.digits / 10, s.exponent + 1⟩ else s

/-- Decimal digits of a positive 64-bit number: no shorter decimal reads back, and of the shortest
ones this is the nearest. The first grid is one power of ten above the number. -/
def shortest (mantissa : Nat) (exponent : Int) : Scientific :=
  let i := Interval.around mantissa exponent
  let bits : Int := (mantissa.log2 : Int) + exponent
  let first := (bits * 30103) / 100000 + 1
  (i.search 20 first).strip 20

end ScriptFlow.Decimal
