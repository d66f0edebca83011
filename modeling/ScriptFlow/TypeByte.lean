/-! The operand type byte behind every opcode. -/

namespace ScriptFlow.TypeByte

def int : Nat := 0x03
def float : Nat := 0x04
def string : Nat := 0x05
def object : Nat := 0x06
def structPair : Nat := 0x24

/-- First of the ten engine types, and of the ten pairs of them. -/
def engine : Nat := 0x10
def enginePair : Nat := 0x30

/-- Both operands have the same engine type. -/
def isEnginePair (b : Int) : Bool := enginePair ≤ b && b ≤ enginePair + 9

/-- The letters a type byte adds to a mnemonic; most bytes add none. -/
def suffix (b : Int) : String :=
  if engine ≤ b && b ≤ engine + 9 then "E" ++ toString (b - engine)
  else if isEnginePair b then
    "E" ++ toString (b - enginePair) ++ "E" ++ toString (b - enginePair)
  else if b = 0x03 then "I"
  else if b = 0x04 then "F"
  else if b = 0x05 then "S"
  else if b = 0x06 then "O"
  else if b = 0x20 then "II"
  else if b = 0x21 then "FF"
  else if b = 0x22 then "OO"
  else if b = 0x23 then "SS"
  else if b = 0x24 then "TT"
  else if b = 0x25 then "IF"
  else if b = 0x26 then "FI"
  else if b = 0x3A then "VV"
  else if b = 0x3B then "VF"
  else if b = 0x3C then "FV"
  else ""

end ScriptFlow.TypeByte
