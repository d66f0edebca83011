/-! The instruction set: one constructor per opcode, its number and its name. -/

namespace ScriptFlow

inductive Opcode where
  | cpdownsp | rsadd | cptopsp | const | action
  | logand | logor | incor | excor | booland
  | eq | neq | geq | gt | lt | leq
  | shleft | shright | ushright
  | add | sub | mul | div | mod | neg | comp
  | movsp | storestateall | jmp | jsr | jz | retn | destruct | noti
  | decisp | incisp | jnz
  | cpdownbp | cptopbp | decibp | incibp | savebp | restorebp | storestate | nop
  deriving DecidableEq, Repr

namespace Opcode

/-- Every opcode, in the order of the numbers. -/
def all : List Opcode :=
  [.cpdownsp, .rsadd, .cptopsp, .const, .action, .logand, .logor, .incor, .excor, .booland,
   .eq, .neq, .geq, .gt, .lt, .leq, .shleft, .shright, .ushright, .add, .sub, .mul, .div, .mod,
   .neg, .comp, .movsp, .storestateall, .jmp, .jsr, .jz, .retn, .destruct, .noti, .decisp,
   .incisp, .jnz, .cpdownbp, .cptopbp, .decibp, .incibp, .savebp, .restorebp, .storestate, .nop]

def number : Opcode → Nat
  | .cpdownsp => 0x01 | .rsadd => 0x02 | .cptopsp => 0x03 | .const => 0x04 | .action => 0x05
  | .logand => 0x06 | .logor => 0x07 | .incor => 0x08 | .excor => 0x09 | .booland => 0x0A
  | .eq => 0x0B | .neq => 0x0C | .geq => 0x0D | .gt => 0x0E | .lt => 0x0F | .leq => 0x10
  | .shleft => 0x11 | .shright => 0x12 | .ushright => 0x13
  | .add => 0x14 | .sub => 0x15 | .mul => 0x16 | .div => 0x17 | .mod => 0x18
  | .neg => 0x19 | .comp => 0x1A | .movsp => 0x1B | .storestateall => 0x1C
  | .jmp => 0x1D | .jsr => 0x1E | .jz => 0x1F | .retn => 0x20 | .destruct => 0x21 | .noti => 0x22
  | .decisp => 0x23 | .incisp => 0x24 | .jnz => 0x25
  | .cpdownbp => 0x26 | .cptopbp => 0x27 | .decibp => 0x28 | .incibp => 0x29
  | .savebp => 0x2A | .restorebp => 0x2B | .storestate => 0x2C | .nop => 0x2D

def ofNumber? (n : Nat) : Option Opcode := all.find? fun op => op.number == n

/-- The name without a type suffix. -/
def name : Opcode → String
  | .cpdownsp => "CPDOWNSP" | .rsadd => "RSADD" | .cptopsp => "CPTOPSP" | .const => "CONST"
  | .action => "ACTION" | .logand => "LOGAND" | .logor => "LOGOR" | .incor => "INCOR"
  | .excor => "EXCOR" | .booland => "BOOLAND" | .eq => "EQ" | .neq => "NEQ" | .geq => "GEQ"
  | .gt => "GT" | .lt => "LT" | .leq => "LEQ" | .shleft => "SHLEFT" | .shright => "SHRIGHT"
  | .ushright => "USHRIGHT" | .add => "ADD" | .sub => "SUB" | .mul => "MUL" | .div => "DIV"
  | .mod => "MOD" | .neg => "NEG" | .comp => "COMP" | .movsp => "MOVSP"
  | .storestateall => "STORESTATEALL" | .jmp => "JMP" | .jsr => "JSR" | .jz => "JZ"
  | .retn => "RETN" | .destruct => "DESTRUCT" | .noti => "NOTI" | .decisp => "DECISP"
  | .incisp => "INCISP" | .jnz => "JNZ" | .cpdownbp => "CPDOWNBP" | .cptopbp => "CPTOPBP"
  | .decibp => "DECIBP" | .incibp => "INCIBP" | .savebp => "SAVEBP" | .restorebp => "RESTOREBP"
  | .storestate => "STORESTATE" | .nop => "NOP"

def ofName? (s : String) : Option Opcode := all.find? fun op => op.name == s

/-- A jump inside a subroutine, conditional or not. -/
def isJump : Opcode → Bool
  | .jmp | .jz | .jnz => true
  | _ => false

def isConditional : Opcode → Bool
  | .jz | .jnz => true
  | _ => false

/-- Control may go on with the instruction stored next. -/
def fallsThrough : Opcode → Bool
  | .jmp | .retn => false
  | _ => true

/-- The last instruction of a basic block. -/
def endsBlock : Opcode → Bool
  | .jmp | .jz | .jnz | .jsr | .retn | .storestate => true
  | _ => false

/-- Its meaning needs the instruction stored next. -/
def needsFollower : Opcode → Bool
  | .jz | .jnz | .jsr | .storestate => true
  | _ => false

end Opcode

end ScriptFlow
