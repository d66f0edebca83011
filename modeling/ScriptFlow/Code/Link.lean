import ScriptFlow.Code.Store

/-! Where control goes from an instruction. Linking gives every instruction its follower and its
branch target, both by address, and tags each target with the strongest kind of control flow that
leads to it. -/

namespace ScriptFlow

/-- How control reaches an address other than by falling through, weakest first. -/
inductive Tag where
  | plain | label | state | subroutine
  deriving DecidableEq, Repr

namespace Tag

def rank : Tag → Nat
  | .plain => 0 | .label => 1 | .state => 2 | .subroutine => 3

/-- The stronger of two tags. -/
def join (a b : Tag) : Tag := if a.rank < b.rank then b else a

def name : Tag → String
  | .plain => "NONE" | .label => "JUMP_LABEL" | .state => "STORE_STATE"
  | .subroutine => "SUBROUTINE"

/-- The tag an opcode leaves on its target; opcodes without one do not branch. -/
def ofOpcode? : Opcode → Option Tag
  | .jmp | .jz | .jnz => some .label
  | .storestate => some .state
  | .jsr => some .subroutine
  | _ => none

end Tag

/-- An instruction together with where control goes from it. -/
structure LinkedInstruction extends Instruction where
  follower : Option Int := none
  target : Option Int := none
  tag : Tag := .plain
  deriving DecidableEq, Repr

namespace LinkedInstruction

def ofInstruction (i : Instruction) : LinkedInstruction := { toInstruction := i }

def line (i : LinkedInstruction) : String := i.toInstruction.line i.target

end LinkedInstruction

namespace Code

/-- The address an instruction branches to: its own and its first argument. -/
def destination (i : Instruction) : Int := i.address + (i.operand.args.head?.getD 0)

/-- The position an instruction branches to, if it is one that branches. `next` tells whether another
instruction is stored behind it. -/
def resolve (code : Code) (next : Bool) (i : Instruction) : Except ScriptError (Option Nat) :=
  if i.opcode.needsFollower && !next then .error (.noFollower i.address i.mnemonic)
  else
    match Tag.ofOpcode? i.opcode with
    | none => .ok none
    | some _ =>
      match code.locate? (destination i) with
      | some p => .ok (some p)
      | none => .error (.badDestination i.address i.mnemonic (destination i))

def resolveAll (code : Code) : List Instruction → Except ScriptError (List (Option Nat))
  | [] => .ok []
  | i :: rest => do
    let t ← code.resolve (!rest.isEmpty) i
    let ts ← resolveAll code rest
    return t :: ts

/-- Strengthen the tag at a position. -/
def mark (tags : List Tag) (p : Nat) (t : Tag) : List Tag := tags.modify p fun old => old.join t

def markTarget (tags : List Tag) (branch : Instruction × Option Nat) : List Tag :=
  match Tag.ofOpcode? branch.1.opcode, branch.2 with
  | some t, some p => mark tags p t
  | _, _ => tags

/-- Put the links of instructions that stand one behind the other together. -/
def zipLinks (addressOf : Nat → Option Int) :
    List Instruction → List (Option Nat) → List Tag → List LinkedInstruction
  | i :: rest, t :: ts, tag :: tags =>
    { toInstruction := i
      follower := if i.opcode.fallsThrough then rest.head?.map Instruction.address else none
      target := t.bind addressOf
      tag } :: zipLinks addressOf rest ts tags
  | _, _, _ => []

/-- Resolve every follower and branch target. -/
def link (code : Code) : Except ScriptError (List LinkedInstruction) := do
  let items := code.toList
  let targets ← code.resolveAll items
  let tags := (items.zip targets).foldl markTarget (items.map fun _ => .plain)
  return zipLinks (fun p => code.items[p]?.map Instruction.address) items targets tags

end Code

end ScriptFlow
