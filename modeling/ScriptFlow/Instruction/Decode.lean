import ScriptFlow.Instruction.Wire
import ScriptFlow.Sequence

/-! Decoding bytes into instructions, one behind the other. Nothing is read beyond a bound. Usually the
bytes reach up to it; where they do not, a field is as long as the bytes that are there. -/

namespace ScriptFlow

/-- Bytes to decode, the bound at which decoding ends, and the address of the first byte. -/
structure Stream where
  bytes : Array UInt8
  bound : Int
  base : Int := 0

namespace Stream

/-- The bytes of a field, unless it reaches beyond the bound. The error is that of an instruction at
`site`. -/
def field (s : Stream) (site : Int) (start : Int) (width : Nat) : Except ScriptError (List UInt8) :=
  if start + width ≤ s.bound then .ok (Position.slice s.bytes start (start + width))
  else .error (.truncated site)

/-- Read the operand of an instruction at `site`, and tell how many bytes it takes. A text has its
length in front. -/
def operand (s : Stream) (site : Int) (start : Int) (type : Nat) (shape : Shape) :
    Except ScriptError (Operand × Nat) := do
  let bytes ← s.field site start shape.bytes
  if shape = .text then
    let length := Wire.unsigned bytes
    let bytes ← s.field site (start + shape.bytes) length
    let operand ← Operand.ofBytes site type bytes shape
    return (operand, shape.bytes + length)
  else
    let operand ← Operand.ofBytes site type bytes shape
    return (operand, shape.bytes)

def instruction (s : Stream) (start : Int) : Except ScriptError Instruction := do
  let address := s.base + start
  match ← s.field address start 2 with
  | [opcodeByte, typeByte] =>
    match Opcode.ofNumber? opcodeByte.toNat with
    | none => .error (.badOpcode address opcodeByte.toNat)
    | some opcode =>
      match Shape.of? opcode typeByte.toNat with
      | none => .error (.badConstant address typeByte.toNat)
      | some shape =>
        let (operand, width) ← s.operand address (start + 2) typeByte.toNat shape
        return { address, opcode, type := typeByte.toNat, size := 2 + width, operand }
  | found => .error (.cutHead address found.length)

def instructionsFrom (s : Stream) : Nat → Int → Except ScriptError (List Instruction)
  | 0, _ => .ok []
  | fuel + 1, start =>
    if start < s.bound then do
      let i ← s.instruction start
      let is ← s.instructionsFrom fuel (start + i.size)
      return i :: is
    else .ok []

/-- Read all instructions from a position on. Every instruction takes two bytes or more, so as many
rounds as there are bytes suffice. -/
def instructions (s : Stream) (start : Int) : Except ScriptError (List Instruction) :=
  s.instructionsFrom (s.bound - start).toNat start

end Stream

namespace Instruction

/-- Decode the instruction of `data` at `start`, which may not reach beyond `stop`. -/
def read (data : List UInt8) (start stop : Int) : Except ScriptError Instruction :=
  Stream.instruction ⟨data.toArray, stop, 0⟩ start

/-- Decode the part of `data` from `start` up to `stop`. -/
def decode (data : List UInt8) (start stop : Int) : Except ScriptError (List Instruction) :=
  Stream.instructions ⟨data.toArray, stop, 0⟩ start

def decodeAt (address : Int) (bytes : List UInt8) : Except ScriptError (List Instruction) :=
  Stream.instructions ⟨bytes.toArray, bytes.length, address⟩ 0

end Instruction

end ScriptFlow
