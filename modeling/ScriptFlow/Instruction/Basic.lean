import ScriptFlow.Decimal.Layout
import ScriptFlow.Opcode
import ScriptFlow.Text.Quoted
import ScriptFlow.TypeByte

/-! A single instruction: where it stands, what it does and what it does it to. -/

namespace ScriptFlow

/-- A constant in the code. A float is kept as its 32-bit pattern; an object identifier is an
integer. -/
inductive Constant where
  | int (value : Int)
  | float (bits : Nat)
  | text (value : String)
  deriving DecidableEq, Repr

def Constant.display : Constant → String
  | .int value => toString value
  | .float bits => Decimal.Layout.constant.text (Decimal.Binary.ofSingle bits)
  | .text value => Text.quoted value

/-- What follows the opcode and the type byte, by shape. -/
inductive Operand where
  | none
  /-- Cells to copy: where they start and their total size in bytes. -/
  | cells (start : Int) (size : Nat)
  | constant (value : Constant)
  /-- An engine routine and the number of arguments passed to it. -/
  | call (routine argc : Nat)
  /-- The size in bytes of the structures compared. -/
  | width (size : Nat)
  /-- A jump distance, or a distance on the stack. -/
  | offset (value : Int)
  /-- A region to drop, and the part of it to keep. -/
  | region (size start keep : Int)
  /-- The distance of a stored continuation, and how much of the two stacks it saves. -/
  | resume (distance base stack : Nat)
  deriving DecidableEq, Repr

namespace Operand

/-- The integers of an operand, in the order they are written. -/
def args : Operand → List Int
  | .none | .constant _ => []
  | .cells start size => [start, size]
  | .call routine argc => [routine, argc]
  | .width size => [size]
  | .offset value => [value]
  | .region size start keep => [size, start, keep]
  | .resume distance base stack => [distance, base, stack]

def constant? : Operand → Option Constant
  | .constant value => some value
  | _ => Option.none

end Operand

structure Instruction where
  address : Int
  opcode : Opcode
  type : Nat
  size : Int
  operand : Operand := .none
  deriving DecidableEq, Repr

namespace Instruction

/-- The address behind the last byte. -/
def stop (i : Instruction) : Int := i.address + i.size

/-- The opcode's name with its type suffix. The type byte of a stored continuation is a distance, so
it adds none. -/
def mnemonic (i : Instruction) : String :=
  if i.opcode = .storestate then i.opcode.name else i.opcode.name ++ TypeByte.suffix i.type

/-- The line of a listing, for an instruction that branches to the given address, if any. -/
def line (i : Instruction) (target : Option Int) : String :=
  let operands := i.operand.args.map toString ++
    (i.operand.constant?.map Constant.display).toList ++
    (target.map fun a => "-> " ++ Text.address a).toList
  let head := Text.upperHex 8 i.address ++ ": "
  if operands.isEmpty then head ++ i.mnemonic
  else head ++ Text.padRight 14 i.mnemonic ++ " " ++ " ".intercalate operands

end Instruction

end ScriptFlow
