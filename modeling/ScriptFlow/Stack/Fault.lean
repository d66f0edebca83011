import ScriptFlow.Engine.Table
import ScriptFlow.Instruction.Basic

/-! What a stack analysis cannot make sense of. -/

namespace ScriptFlow.Stack

inductive Cause where
  | mismatch (wanted found : CellType) (holder : Nat)
  | underflow (needed available : Nat)
  | shortCopy
  | shortRegion
  | outside
  | unaligned (value : Int)
  | noBase
  | badType
  | notArithmetic
  | grows (amount : Int)
  | writesBelow
  | unknownRoutine (routine : Nat)
  | arity (e : Engine.ArityError)
  deriving DecidableEq, Repr

/-- The cause in words, for an instruction with the given mnemonic and type byte. -/
def Cause.message (mnemonic : String) (type : Nat) : Cause → Text
  | .mismatch wanted found holder =>
    mnemonic ++ " expects " ++ wanted.name ++ ", variable " ++ toString holder ++ " is " ++
      found.name
  | .underflow needed available =>
    mnemonic ++ " underflows the stack (" ++ toString needed ++ " cells needed, " ++
      toString available ++ " available)"
  | .shortCopy => mnemonic ++ " underflows the stack"
  | .shortRegion => "DESTRUCT underflows the stack"
  | .outside => mnemonic ++ " accesses cells outside the stack"
  | .unaligned value => mnemonic ++ " uses unaligned offset " ++ toString value
  | .noBase => mnemonic ++ " without SAVEBP"
  | .badType => mnemonic ++ " has invalid type " ++ Text.byte type
  | .notArithmetic => mnemonic ++ " is not an arithmetic type"
  | .grows amount => "MOVSP grows the stack by " ++ toString amount
  | .writesBelow => "call writes below the bottom of the stack"
  | .unknownRoutine routine => "unknown engine function " ++ toString routine
  | .arity e => e.message

inductive Fault where
  /-- An instruction does not fit the stack it meets. -/
  | site (i : Instruction) (cause : Cause)
  /-- A subroutine is entered while it is being analyzed. -/
  | recursion (name : String)
  /-- Two paths reach a block with stacks of different depth. -/
  | depth (block : Int) (found known : Nat)
  /-- A subroutine returns with stacks of different depth. -/
  | delta (name : String) (first second : Int)
  deriving DecidableEq, Repr

def Fault.message : Fault → Text
  | .site i cause => Text.address i.address ++ ": " ++ cause.message i.mnemonic i.type
  | .recursion name => "recursive call into " ++ name ++ " before its stack effect is known"
  | .depth block found known =>
    "block " ++ Text.address block ++ " entered with stack depth " ++ toString found ++
      ", previously " ++ toString known
  | .delta name first second =>
    name ++ " returns with stack deltas " ++ toString first ++ " and " ++ toString second

/-- Why an analysis stops. A fault is an answer about the script; the others say that the script
given to the analysis is not one it can look at. -/
inductive Halt where
  | fault (f : Fault)
  /-- The instruction lacks an operand its opcode needs, in the code or on the stack. -/
  | missingOperand (site : Int)
  /-- The instruction leads to code that belongs to no subroutine, or to one nothing is known of. -/
  | ownerless (site : Int)
  | exhausted
  deriving DecidableEq, Repr

end ScriptFlow.Stack
