import ScriptFlow.Error
import ScriptFlow.Instruction.Basic

/-! The bytes of an instruction: opcode, type byte, then the operand in big-endian order. The shape of
the operand depends on the opcode, and for constants and comparisons also on the type byte. The
writer stands beside the reader, so that reading can be checked against it. -/

namespace ScriptFlow

inductive Shape where
  | none | cells | int | object | float | text | call | width | offset | region | resume
  deriving DecidableEq, Repr

/-- The shape an opcode and a type byte ask for; a constant has one for four type bytes only. -/
def Shape.of? (opcode : Opcode) (type : Nat) : Option Shape :=
  match opcode with
  | .cpdownsp | .cptopsp | .cpdownbp | .cptopbp => some .cells
  | .const =>
    if type = TypeByte.int then some .int
    else if type = TypeByte.object then some .object
    else if type = TypeByte.float then some .float
    else if type = TypeByte.string then some .text
    else Option.none
  | .action => some .call
  | .eq | .neq => if type = TypeByte.structPair then some .width else some .none
  | .movsp | .jmp | .jsr | .jz | .jnz | .decisp | .incisp | .decibp | .incibp => some .offset
  | .destruct => some .region
  | .storestate => some .resume
  | _ => some .none

namespace Wire

/-- An unsigned number, most significant byte first. -/
def unsigned (bytes : List UInt8) : Nat := bytes.foldl (fun n b => n * 256 + b.toNat) 0

/-- How many numbers there are of a width in bytes. -/
def span (width : Nat) : Nat := Nat.pow 256 width

/-- A number in two's complement, most significant byte first. -/
def signed (bytes : List UInt8) : Int :=
  let n := unsigned bytes
  if 2 * n < span bytes.length then n else (n : Int) - span bytes.length

/-- The lowest `width` bytes of a number. -/
def bytesOf : Nat → Nat → List UInt8
  | 0, _ => []
  | width + 1, n => bytesOf width (n / 256) ++ [UInt8.ofNat (n % 256)]

/-- The lowest `width` bytes of a number in two's complement. -/
def signedBytesOf (width : Nat) (n : Int) : List UInt8 :=
  bytesOf width (n % span width).toNat

/-- One character per byte. -/
def latin (bytes : List UInt8) : String := String.ofList (bytes.map fun b => Char.ofNat b.toNat)

def latinBytes (s : String) : List UInt8 := s.toList.map fun c => UInt8.ofNat c.toNat

end Wire

/-- The number of bytes a shape takes; those of a text are counted in front of it, in this width. -/
def Shape.bytes : Shape → Nat
  | .none => 0
  | .text | .width => 2
  | .call => 3
  | .int | .object | .float | .offset => 4
  | .cells | .region => 6
  | .resume => 8

open Wire in
/-- The operand of a shape in its bytes. Where bytes are missing, numbers are made of those that are
there; a float and the number of arguments of a call cannot be. -/
def Operand.ofBytes (site : Int) (type : Nat) (bytes : List UInt8) :
    Shape → Except ScriptError Operand
  | .none => .ok .none
  | .cells => .ok (.cells (signed (bytes.take 4)) (unsigned (bytes.drop 4)))
  | .int => .ok (.constant (.int (signed bytes)))
  | .object => .ok (.constant (.int (unsigned bytes)))
  | .float =>
    if bytes.length = 4 then .ok (.constant (.float (unsigned bytes))) else .error (.cutFloat site)
  | .text => .ok (.constant (.text (latin bytes)))
  | .call =>
    match bytes.drop 2 with
    | [] => .error (.cutCall site)
    | argc => .ok (.call (unsigned (bytes.take 2)) (unsigned argc))
  | .width => .ok (.width (unsigned bytes))
  | .offset => .ok (.offset (signed bytes))
  | .region =>
    .ok (.region (signed (bytes.take 2)) (signed ((bytes.drop 2).take 2)) (signed (bytes.drop 4)))
  | .resume => .ok (.resume type (unsigned (bytes.take 4)) (unsigned (bytes.drop 4)))

open Wire in
/-- The bytes of an operand. The distance of a continuation is the type byte and not written again;
the type byte also tells a signed constant from an unsigned one, whose bytes are the same. -/
def Operand.bytes : Operand → List UInt8
  | .none => []
  | .cells start size => signedBytesOf 4 start ++ bytesOf 2 size
  | .constant (.int value) => signedBytesOf 4 value
  | .constant (.float bits) => bytesOf 4 bits
  | .constant (.text value) => bytesOf 2 (latinBytes value).length ++ latinBytes value
  | .call routine argc => bytesOf 2 routine ++ bytesOf 1 argc
  | .width size => bytesOf 2 size
  | .offset value => signedBytesOf 4 value
  | .region size start keep => signedBytesOf 2 size ++ signedBytesOf 2 start ++ signedBytesOf 2 keep
  | .resume _ base stack => bytesOf 4 base ++ bytesOf 4 stack

def Instruction.bytes (i : Instruction) : List UInt8 :=
  UInt8.ofNat i.opcode.number :: UInt8.ofNat i.type :: i.operand.bytes

end ScriptFlow
