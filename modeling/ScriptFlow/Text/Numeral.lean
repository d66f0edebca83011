/-! White space and decimal digits of every script, and integers written with an optional sign and
base. White space may surround the number, single underscores may divide its digits, and digits of
every script are read. A decimal number has no leading zeros unless it is zero, and not more digits
than `digitLimit`. -/

namespace ScriptFlow.Text

/-- White space in the sense of the character database. The four information separators count. -/
def isBlank (c : Char) : Bool :=
  let n := c.toNat
  (9 ≤ n && n ≤ 13) || (28 ≤ n && n ≤ 32) || n == 0x85 || n == 0xA0 || n == 0x1680 ||
    (0x2000 ≤ n && n ≤ 0x200A) || n == 0x2028 || n == 0x2029 || n == 0x202F || n == 0x205F ||
    n == 0x3000

def trim (cs : List Char) : List Char :=
  ((cs.dropWhile isBlank).reverse.dropWhile isBlank).reverse

/-- The code points of the digit zero, in increasing order. Each script has a run of ten code points
from zero to nine. -/
def zeros : List Nat :=
  [0x30, 0x660, 0x6F0, 0x7C0, 0x966, 0x9E6, 0xA66, 0xAE6, 0xB66, 0xBE6, 0xC66, 0xCE6, 0xD66,
   0xDE6, 0xE50, 0xED0, 0xF20, 0x1040, 0x1090, 0x17E0, 0x1810, 0x1946, 0x19D0, 0x1A80, 0x1A90,
   0x1B50, 0x1BB0, 0x1C40, 0x1C50, 0xA620, 0xA8D0, 0xA900, 0xA9D0, 0xA9F0, 0xAA50, 0xABF0,
   0xFF10, 0x104A0, 0x10D30, 0x11066, 0x110F0, 0x11136, 0x111D0, 0x112F0, 0x11450, 0x114D0,
   0x11650, 0x116C0, 0x11730, 0x118E0, 0x11950, 0x11C50, 0x11D50, 0x11DA0, 0x16A60, 0x16AC0,
   0x16B50, 0x1D7CE, 0x1D7D8, 0x1D7E2, 0x1D7EC, 0x1D7F6, 0x1E140, 0x1E2F0, 0x1E950, 0x1FBF0]

def decimalValue? (c : Char) : Option Nat :=
  (zeros.find? fun z => z ≤ c.toNat && c.toNat < z + 10).map fun z => c.toNat - z

namespace Numeral

inductive Refusal where
  | malformed
  | tooLong (digits : Nat)
  deriving DecidableEq, Repr

/-- The most digits a decimal number has, here and in JSON documents. -/
def digitLimit : Nat := 4300

/-- White space around a number: the ASCII part is narrower than `isBlank`. -/
def isSpace (c : Char) : Bool :=
  let n := c.toNat
  if n < 128 then (9 ≤ n && n ≤ 13) || n == 32 else isBlank c

/-- The value of one digit in any base up to sixteen. -/
def digitValue? (c : Char) : Option Nat :=
  let n := c.toNat
  if 0x61 ≤ n && n ≤ 0x66 then some (n - 0x61 + 10)
  else if 0x41 ≤ n && n ≤ 0x46 then some (n - 0x41 + 10)
  else decimalValue? c

def digitIn? (base : Nat) (c : Char) : Option Nat :=
  (digitValue? c).filter fun d => d < base

/-- Digits of a base up to the end of the text; an underscore stands between two digits. -/
def digits? (base : Nat) : List Char → Nat → Option Nat
  | [], n => some n
  | c :: cs, n =>
    match digitIn? base c with
    | some d => digits? base cs (n * base + d)
    | none =>
      if c == '_' then
        match cs with
        | c' :: cs' =>
          match digitIn? base c' with
          | some d => digits? base cs' (n * base + d)
          | none => none
        | [] => none
      else none

/-- At least one digit, and no underscore in front of it. -/
def positive? (base : Nat) : List Char → Option Nat
  | [] => none
  | c :: cs => (digitIn? base c).bind fun d => digits? base cs d

/-- One underscore may follow a base mark. -/
def skipMark : List Char → List Char
  | '_' :: cs => cs
  | cs => cs

/-- The base named by a letter behind a zero. -/
def markedBase? (c : Char) : Option Nat :=
  if c == 'x' || c == 'X' then some 16
  else if c == 'o' || c == 'O' then some 8
  else if c == 'b' || c == 'B' then some 2
  else none

/-- A decimal number. Its digits are counted before anything is said about what follows them. -/
def decimal (cs : List Char) : Except Refusal Nat :=
  let run := cs.takeWhile fun c => (decimalValue? c).isSome || c == '_'
  let count := run.countP fun c => c != '_'
  match positive? 10 run with
  | none => .error .malformed
  | some n =>
    if count > digitLimit then .error (.tooLong count)
    else if run.length < cs.length then .error .malformed
    else .ok n

def inBase (base : Nat) (cs : List Char) : Except Refusal Nat :=
  match positive? base (skipMark cs) with
  | some n => .ok n
  | none => .error .malformed

/-- An unsigned number: behind a base mark, or decimal. -/
def unsigned (cs : List Char) : Except Refusal Nat :=
  match cs with
  | zero :: rest =>
    if decimalValue? zero = some 0 then
      match rest.head?.bind markedBase? with
      | some base => inBase base rest.tail
      | none => do
        let n ← decimal cs
        if n = 0 then return 0 else .error .malformed
    else decimal cs
  | [] => .error .malformed

def strip (cs : List Char) : List Char :=
  ((cs.dropWhile isSpace).reverse.dropWhile isSpace).reverse

def parse (s : String) : Except Refusal Int :=
  match strip s.toList with
  | '-' :: cs => (unsigned cs).map fun n => -(n : Int)
  | '+' :: cs => (unsigned cs).map fun n => (n : Int)
  | cs => (unsigned cs).map fun n => (n : Int)

end Numeral

end ScriptFlow.Text
