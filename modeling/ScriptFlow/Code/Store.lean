import ScriptFlow.Error
import ScriptFlow.Instruction.Basic

/-! Instructions in increasing address order, looked up by binary search. -/

namespace ScriptFlow

/-- Instructions in the order they were appended. Each carries its own address, so the addresses that
are searched and the instructions that are found are one sequence and agree by construction. -/
structure Code where
  items : Array Instruction := #[]
  deriving DecidableEq, Repr

namespace Code

/-- Add an instruction behind the last one; an address that is not above the last one is refused. -/
def append (code : Code) (i : Instruction) : Except ScriptError Code :=
  match code.items.back? with
  | some last =>
    if i.address ≤ last.address then .error (.outOfOrder i.address)
    else .ok ⟨code.items.push i⟩
  | none => .ok ⟨code.items.push i⟩

/-- Append one instruction after the other, up to the first that is refused. -/
def ofList : List Instruction → Except ScriptError Code :=
  List.foldlM append {}

/-- The instructions in address order. -/
def toList (code : Code) : List Instruction := code.items.toList

/-- The least position in `[low, high]` whose address is not below `a`; the positions below `low` are
known to be too small and those from `high` on to be large enough. -/
def lowerBound (items : Array Instruction) (a : Int) : Nat → Nat → Nat → Nat
  | 0, low, _ => low
  | fuel + 1, low, high =>
    if low < high then
      let middle := (low + high) / 2
      match items[middle]? with
      | some i =>
        if i.address < a then lowerBound items a fuel (middle + 1) high
        else lowerBound items a fuel low middle
      | none => low
    else low

def locate? (code : Code) (a : Int) : Option Nat :=
  let n := code.items.size
  let p := lowerBound code.items a n 0 n
  match code.items[p]? with
  | some i => if i.address = a then some p else none
  | none => none

def find? (code : Code) (a : Int) : Option Instruction :=
  (code.locate? a).bind fun p => code.items[p]?

/-- The number of bytes the instructions take. -/
def size (code : Code) : Int := code.toList.foldr (fun i n => i.size + n) 0

end Code

end ScriptFlow
