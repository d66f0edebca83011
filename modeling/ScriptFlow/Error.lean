import ScriptFlow.Text.Quoted

/-! What makes a byte image no script. Each cause names the place it was found at, if it has one. -/

namespace ScriptFlow

inductive ScriptError where
  | shortHeader (length : Nat)
  | badMagic (magic : List UInt8)
  | badMarker (marker : Nat)
  | oversized (size length : Nat)
  | undersized (size : Nat)
  | truncated (site : Int)
  | badOpcode (site : Int) (byte : Nat)
  | badConstant (site : Int) (byte : Nat)
  /-- The bytes end inside the opcode and the type byte, though the bound lies behind them. -/
  | cutHead (site : Int) (found : Nat)
  /-- The bytes end in front of the number of arguments. -/
  | cutCall (site : Int)
  /-- The bytes end inside a float. -/
  | cutFloat (site : Int)
  | outOfOrder (site : Int)
  /-- The instructions take another number of bytes than the header says. -/
  | uncovered (covered announced : Int)
  | noFollower (site : Int) (mnemonic : String)
  | badDestination (site : Int) (mnemonic : String) (destination : Int)
  deriving DecidableEq, Repr

namespace ScriptError

/-- The address of the instruction at fault; the size marker stands at address 8. -/
def address? : ScriptError → Option Int
  | .badMarker _ => some 8
  | .truncated site | .badOpcode site _ | .badConstant site _ | .outOfOrder site
  | .noFollower site _ | .badDestination site _ _ => some site
  | .shortHeader _ | .badMagic _ | .oversized _ _ | .undersized _ | .cutHead _ _ | .cutCall _
  | .cutFloat _ | .uncovered _ _ => none

def detail : ScriptError → String
  | .shortHeader length =>
    "stream of " ++ toString length ++ " bytes is too short for an NCS header"
  | .badMagic magic => "not an NCS V1.0 file (magic " ++ Text.quotedBytes magic ++ ")"
  | .badMarker marker =>
    "script size opcode is " ++ Text.byte marker ++ ", expected " ++ Text.byte 0x42
  | .oversized size length =>
    "script size " ++ toString size ++ " exceeds stream size " ++ toString length
  | .undersized size => "script size " ++ toString size ++ " is smaller than the header"
  | .truncated _ => "instruction truncated by the end of the script"
  | .badOpcode _ byte => "invalid opcode " ++ Text.byte byte
  | .badConstant _ byte => "invalid CONST type " ++ Text.byte byte
  | .cutHead _ found =>
    "not enough values to unpack (expected 2, got " ++ toString found ++ ")"
  | .cutCall _ => "index out of range"
  | .cutFloat _ => "unpack requires a buffer of 4 bytes"
  | .outOfOrder _ => "instructions must be stored in address order"
  | .uncovered covered announced =>
    "instructions cover " ++ toString covered ++ " bytes, script size announces " ++
      toString announced
  | .noFollower _ mnemonic => mnemonic ++ " is not followed by another instruction"
  | .badDestination _ mnemonic destination =>
    mnemonic ++ " destination " ++ Text.address destination ++ " is not an instruction"

/-- The cause behind the address it was found at. -/
def message (e : ScriptError) : String :=
  match e.address? with
  | some a => Text.address a ++ ": " ++ e.detail
  | none => e.detail

end ScriptError

end ScriptFlow
