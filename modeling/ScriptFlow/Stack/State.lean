import ScriptFlow.Graph.Basic
import ScriptFlow.Stack.Fault

/-! What a stack analysis knows. A stack is a list of variables, the bottom first; variables are named
by their position in the space of all variables, so the stacks of a caller and of a callee can share
them. -/

namespace ScriptFlow.Stack

abbrev VarId := Nat

/-- Variables from the bottom of the stack to its top. -/
abbrev Cells := List VarId

/-- A stack cell created somewhere in the script. Instructions are given by their addresses. -/
structure Variable where
  id : VarId
  type : CellType
  creator : Int
  readers : List Int := []
  writers : List Int := []
  isGlobal : Bool := false
  deriving DecidableEq, Repr

/-- Types written into cells of a caller, by their distance from the depth at the call. A cell keeps
the place of its first write and the type of its last. -/
abbrev Writes := List (Int × CellType)

def Writes.set (offset : Int) (type : CellType) : Writes → Writes
  | [] => [(offset, type)]
  | w :: ws => if w.1 = offset then (offset, type) :: ws else w :: Writes.set offset type ws

/-- What a call does to the stack of the caller. A subroutine that never returns has no delta. -/
structure Effect where
  delta : Option Int
  writes : Writes
  deriving DecidableEq, Repr

/-- How far a block has come, and the depth of the stack it was entered with. -/
inductive Progress where
  | untouched
  | inProgress (depth : Nat)
  | finished (depth : Nat)
  deriving DecidableEq, Repr, Inhabited

namespace Progress

def depth? : Progress → Option Nat
  | .untouched => none
  | .inProgress depth | .finished depth => some depth

def finish : Progress → Progress
  | .inProgress depth => .finished depth
  | p => p

def name : Progress → String
  | .untouched => "none" | .inProgress _ => "in-progress" | .finished _ => "finished"

end Progress

/-- All that an analysis has gathered. The innermost base pointer comes first. -/
structure State where
  space : Array Variable := #[]
  globals : Cells := []
  bases : List Cells := []
  progress : Array Progress := #[]
  effects : List (Int × Effect) := []
  active : List Int := []
  deriving DecidableEq, Repr

namespace State

def progressOf (s : State) (b : BlockId) : Progress := s.progress.getD b .untouched

def setProgress (s : State) (b : BlockId) (p : Progress) : State :=
  { s with progress := s.progress.setIfInBounds b p }

def effectOf? (s : State) (subroutine : Int) : Option Effect :=
  (s.effects.find? fun e => e.1 == subroutine).map Prod.snd

def typeOf (s : State) (v : VarId) : CellType := (s.space[v]?.map Variable.type).getD .any

def updateVar (s : State) (v : VarId) (f : Variable → Variable) : State :=
  { s with space := s.space.modify v f }

end State

/-- A computation on the state of an analysis. What it has done to the state stays done when it
halts. -/
abbrev Sim := EStateM Halt State

namespace Sim

def refuse {α : Type} (i : Instruction) (cause : Cause) : Sim α := throw (.fault (.site i cause))

def addReader (i : Instruction) (v : VarId) : Sim Unit :=
  modify fun s => s.updateVar v fun x => { x with readers := x.readers ++ [i.address] }

def addWriter (i : Instruction) (v : VarId) : Sim Unit :=
  modify fun s => s.updateVar v fun x => { x with writers := x.writers ++ [i.address] }

/-- Give a variable a type. A variable of any type takes it on; another type is refused. -/
def unify (i : Instruction) (type : CellType) (v : VarId) : Sim Unit := do
  let found := (← get).typeOf v
  if type = .any ∨ type = found then return
  else if found = .any then modify fun s => s.updateVar v fun x => { x with type }
  else refuse i (.mismatch type found v)

def create (i : Instruction) (type : CellType) : Sim VarId := do
  let id := (← get).space.size
  modify fun s => { s with space := s.space.push { id, type, creator := i.address } }
  return id

def createAll (i : Instruction) : List CellType → Sim Cells
  | [] => return []
  | type :: types => do
    let v ← create i type
    let vs ← createAll i types
    return v :: vs

def push (i : Instruction) (type : CellType) (stack : Cells) : Sim Cells := do
  let v ← create i type
  return stack ++ [v]

/-- Create variables of several types on the stack, the last on top. -/
def pushAll (i : Instruction) (types : List CellType) (stack : Cells) : Sim Cells := do
  let vs ← createAll i types
  return stack ++ vs

/-- Cut the stack at a height; the instruction reads what is cut off. -/
def cut (i : Instruction) (height : Nat) (stack : Cells) : Sim (Cells × Cells) := do
  let popped := stack.drop height
  popped.forM (addReader i)
  return (stack.take height, popped)

/-- Remove cells from the top; the answer is the stack left and the cells removed. -/
def pop (i : Instruction) (count : Nat) (stack : Cells) : Sim (Cells × Cells) :=
  if count > stack.length then refuse i (.underflow count stack.length)
  else cut i (stack.length - count) stack

/-- Remove cells of known types from the top, the last type being that of the top. -/
def popTyped (i : Instruction) (types : List CellType) (stack : Cells) : Sim Cells := do
  let (stack, popped) ← pop i types.length stack
  (popped.zip types).forM fun (v, type) => unify i type v
  return stack

/-- A size in bytes as a number of cells of four bytes each. -/
def cellsIn (i : Instruction) (value : Int) : Sim Int :=
  if value % 4 = 0 then return value / 4 else refuse i (.unaligned value)

/-- Where `count` cells start that lie at an offset from the top. -/
def slot (i : Instruction) (offset : Int) (count : Int) (stack : Cells) : Sim Nat := do
  let start : Int := stack.length + (← cellsIn i offset)
  if start < 0 ∨ start + count > stack.length then refuse i .outside else return start.toNat

/-- The stack as the innermost base pointer saved it. -/
def base (i : Instruction) : Sim Cells := do
  match (← get).bases with
  | snapshot :: _ => return snapshot
  | [] => refuse i .noBase

end Sim

end ScriptFlow.Stack
