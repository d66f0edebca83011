import ScriptFlow.Stack.State

/-! What a single instruction does to the stack. -/

namespace ScriptFlow.Stack

/-- The type of a type byte that names one cell. -/
def singleType? (type : Nat) : Option CellType :=
  if type = TypeByte.int then some .int
  else if type = TypeByte.float then some .float
  else if type = TypeByte.string then some .string
  else if type = TypeByte.object then some .object
  else if h : TypeByte.engine ≤ type ∧ type < TypeByte.engine + 10 then
    some (.engine ⟨type - TypeByte.engine, by omega⟩)
  else none

def vectorCells : List CellType := [.float, .float, .float]

/-- What a binary operator takes and what arithmetic on it yields; types that cannot be calculated
with yield nothing. -/
structure Operands where
  left : List CellType
  right : List CellType
  result : List CellType
  deriving DecidableEq, Repr

def operands? (type : Nat) : Option Operands :=
  if h : TypeByte.enginePair ≤ type ∧ type < TypeByte.enginePair + 10 then
    let cell : CellType := .engine ⟨type - TypeByte.enginePair, by omega⟩
    some ⟨[cell], [cell], []⟩
  else if type = 0x20 then some ⟨[.int], [.int], [.int]⟩
  else if type = 0x21 then some ⟨[.float], [.float], [.float]⟩
  else if type = 0x22 then some ⟨[.object], [.object], []⟩
  else if type = 0x23 then some ⟨[.string], [.string], [.string]⟩
  else if type = 0x25 then some ⟨[.int], [.float], [.float]⟩
  else if type = 0x26 then some ⟨[.float], [.int], [.float]⟩
  else if type = 0x3A then some ⟨vectorCells, vectorCells, vectorCells⟩
  else if type = 0x3B then some ⟨vectorCells, [.float], vectorCells⟩
  else if type = 0x3C then some ⟨[.float], vectorCells, vectorCells⟩
  else none

def cellsOf (type : CellType) : List CellType :=
  if type = .vector then vectorCells else if type.cells = 0 then [] else [type]

namespace Sim

def single (i : Instruction) : Sim CellType :=
  match singleType? i.type with
  | some type => return type
  | none => refuse i .badType

def operands (i : Instruction) : Sim Operands :=
  match operands? i.type with
  | some o => return o
  | none => refuse i .badType

/-- Read cells and create a copy of each. -/
def copies (i : Instruction) : Cells → Sim Cells
  | [] => return []
  | v :: vs => do
    addReader i v
    let w ← create i ((← get).typeOf v)
    let ws ← copies i vs
    return w :: ws

/-- Copy the cells on top, paired with the cells they go to. `note` is called with the position of a
target among the targets and its type. -/
def copyDown (i : Instruction) (note : Nat → CellType → Writes → Writes) :
    Nat → List (VarId × VarId) → Writes → Sim Writes
  | _, [], writes => return writes
  | n, (target, value) :: rest, writes => do
    unify i ((← get).typeOf value) target
    unify i ((← get).typeOf target) value
    addWriter i target
    let writes := note n ((← get).typeOf target) writes
    copyDown i note (n + 1) rest writes

/-- The checks that all copies share: where the cells start and how many they are. -/
def copySpan (i : Instruction) (offset : Int) (size : Nat) (stack : Cells) (source : Sim Cells) :
    Sim (Cells × Nat × Nat) := do
  let count := (← cellsIn i size).toNat
  if count > stack.length then refuse i .shortCopy
  else
    let source ← source
    let start ← slot i offset count source
    return (source, start, count)

/-- Copy cells up from the stack or from a saved one. -/
def copyTop (i : Instruction) (offset : Int) (size : Nat) (stack : Cells) (source : Sim Cells) :
    Sim Cells := do
  let (source, start, count) ← copySpan i offset size stack source
  let vs ← copies i ((source.drop start).take count)
  return stack ++ vs

/-- Copy the top cells down. Writes below the base of the subroutine go to its caller's cells. -/
def copyDownSP (i : Instruction) (offset : Int) (size : Nat) (height : Nat) (stack : Cells)
    (writes : Writes) : Sim Writes := do
  let (source, start, count) ← copySpan i offset size stack (return stack)
  let pairs := ((source.drop start).take count).zip (stack.drop (stack.length - count))
  let note (n : Nat) (type : CellType) (writes : Writes) : Writes :=
    if start + n < height then writes.set ((start + n : Nat) - (height : Int)) type else writes
  copyDown i note 0 pairs writes

def copyDownBP (i : Instruction) (offset : Int) (size : Nat) (stack : Cells) : Sim Unit := do
  let (source, start, count) ← copySpan i offset size stack (base i)
  let pairs := ((source.drop start).take count).zip (stack.drop (stack.length - count))
  let _ ← copyDown i (fun _ _ writes => writes) 0 pairs []

/-- Take the arguments of an engine call off the stack, the first one being on top. -/
def popParams (i : Instruction) : List CellType → Cells → Sim Cells
  | [], stack => return stack
  | param :: params, stack => do
    let stack ← popTyped i (cellsOf param) stack
    popParams i params stack

def engineCall (table : Engine.Table) (i : Instruction) (routine argc : Nat) (stack : Cells) :
    Sim Cells := do
  match table.find? routine with
  | none => refuse i (.unknownRoutine routine)
  | some signature =>
    match signature.passed argc with
    | .error e => refuse i (.arity e)
    | .ok params =>
      let stack ← popParams i params stack
      pushAll i (cellsOf signature.returns) stack

def binary (i : Instruction) (o : Operands) (result : List CellType) (stack : Cells) :
    Sim Cells := do
  let stack ← popTyped i o.right stack
  let stack ← popTyped i o.left stack
  pushAll i result stack

/-- Drop a region of the stack but for a part of it. A negative size cuts the stack at that height
instead, and then no part is kept. -/
def destroy (i : Instruction) (size start keep : Int) (stack : Cells) : Sim Cells := do
  let count ← cellsIn i size
  if count > stack.length then refuse i .shortRegion
  else
    let first ← cellsIn i start
    let length ← cellsIn i keep
    let height := (if count < 0 then -count else stack.length - count).toNat
    let kept := if count < 0 then [] else Position.slice (stack.drop height).toArray first (first + length)
    let (stack, _) ← cut i height stack
    return stack ++ kept

/-- Change an integer cell in place. -/
def adjust (i : Instruction) (offset : Int) (source : Cells) : Sim Unit := do
  let start ← slot i offset 1 source
  match source[start]? with
  | some v =>
    unify i .int v
    addReader i v
    addWriter i v
  | none => throw (.missingOperand i.address)

/-- Save the stack as base pointer. The first one that is not empty holds the globals. -/
def saveBase (i : Instruction) (stack : Cells) : Sim Cells := do
  if (← get).globals.isEmpty then
    modify fun s => { s with globals := stack }
    stack.forM fun v => modify fun s => s.updateVar v fun x => { x with isGlobal := true }
  modify fun s => { s with bases := stack :: s.bases }
  push i .int stack

def restoreBase (i : Instruction) (stack : Cells) : Sim Cells := do
  let _ ← base i
  let stack ← popTyped i [.int] stack
  modify fun s => { s with bases := s.bases.tail }
  return stack

/-- Run an instruction that is not a call. `height` is the depth of the stack at the entry of the
subroutine; `writes` are the writes below it so far. -/
def exec (table : Engine.Table) (height : Nat) (i : Instruction) (stack : Cells) (writes : Writes) :
    Sim (Cells × Writes) := do
  let missing {α : Type} : Sim α := throw (.missingOperand i.address)
  let keep (run : Sim Cells) : Sim (Cells × Writes) := return (← run, writes)
  match i.opcode with
  | .cpdownsp =>
    match i.operand with
    | .cells start size => return (stack, ← copyDownSP i start size height stack writes)
    | _ => missing
  | .cpdownbp =>
    match i.operand with
    | .cells start size =>
      copyDownBP i start size stack
      return (stack, writes)
    | _ => missing
  | .cptopsp =>
    match i.operand with
    | .cells start size => keep (copyTop i start size stack (return stack))
    | _ => missing
  | .cptopbp =>
    match i.operand with
    | .cells start size => keep (copyTop i start size stack (base i))
    | _ => missing
  | .rsadd | .const => keep do push i (← single i) stack
  | .action =>
    match i.operand with
    | .call routine argc => keep (engineCall table i routine argc stack)
    | _ => missing
  | .logand | .logor | .incor | .excor | .booland | .shleft | .shright | .ushright | .mod =>
    keep do push i .int (← popTyped i [.int, .int] stack)
  | .eq | .neq | .geq | .gt | .lt | .leq =>
    if i.type = TypeByte.structPair then
      match i.operand with
      | .width size => keep do
        let count := (← cellsIn i size).toNat
        let (stack, _) ← pop i (2 * count) stack
        push i .int stack
      | _ => missing
    else keep do binary i (← operands i) [.int] stack
  | .add | .sub | .mul | .div => keep do
    let o ← operands i
    if o.result.isEmpty then refuse i .notArithmetic else binary i o o.result stack
  | .neg => keep do
    let type ← single i
    push i type (← popTyped i [type] stack)
  | .comp | .noti => keep do push i .int (← popTyped i [.int] stack)
  | .movsp =>
    match i.operand with
    | .offset value => keep do
      if value > 0 then refuse i (.grows value)
      else
        let (stack, _) ← pop i (-(← cellsIn i value)).toNat stack
        return stack
    | _ => missing
  | .jz | .jnz => keep (popTyped i [.int] stack)
  | .destruct =>
    match i.operand with
    | .region size start keepSize => keep (destroy i size start keepSize stack)
    | _ => missing
  | .decisp | .incisp =>
    match i.operand with
    | .offset value =>
      adjust i value stack
      return (stack, writes)
    | _ => missing
  | .decibp | .incibp =>
    match i.operand with
    | .offset value =>
      adjust i value (← base i)
      return (stack, writes)
    | _ => missing
  | .savebp => keep (saveBase i stack)
  | .restorebp => keep (restoreBase i stack)
  | .jmp | .jsr | .retn | .nop | .storestate | .storestateall => return (stack, writes)

/-- Write the types that a callee leaves in the cells of its caller. -/
def replayWrites (i : Instruction) (stack : Cells) : Writes → Sim Unit
  | [] => return
  | (offset, type) :: rest => do
    let index := stack.length + offset
    if index < 0 then refuse i .writesBelow
    else
      match stack[index.toNat]? with
      | some v =>
        unify i type v
        addWriter i v
      | none => throw (.missingOperand i.address)
      replayWrites i stack rest

/-- Do to the stack what a call does. -/
def replay (i : Instruction) (effect : Effect) (stack : Cells) : Sim Cells := do
  replayWrites i stack effect.writes
  match effect.delta with
  | none => return stack
  | some delta =>
    if delta < 0 then
      let (stack, _) ← pop i (-delta).toNat stack
      return stack
    else pushAll i (List.replicate delta.toNat .any) stack

end Sim

end ScriptFlow.Stack
