import ScriptFlow.Graph.Neighbours

/-! Subroutines: the blocks that belong to one entry point. -/

namespace ScriptFlow

inductive SubroutineKind where
  | plain | start | global | main | state
  deriving DecidableEq, Repr

namespace SubroutineKind

def name : SubroutineKind → String
  | .plain => "none" | .start => "start" | .global => "global" | .main => "main"
  | .state => "store-state"

def all : List SubroutineKind := [.plain, .start, .global, .main, .state]

def ofName? (s : String) : Option SubroutineKind := all.find? fun k => k.name == s

end SubroutineKind

/-- A subroutine by its address. Callers are the addresses of the calls to it. -/
structure Subroutine where
  address : Int
  kind : SubroutineKind := .plain
  entry : Option BlockId := none
  blocks : List BlockId := []
  callers : List Int := []
  deriving DecidableEq, Repr

namespace Subroutine

/-- The name in listings and messages. -/
def name (s : Subroutine) : String :=
  match s.kind with
  | .start => "_start"
  | .global => "_global"
  | .main => "main"
  | .state => "sta_" ++ Text.upperHex 8 s.address
  | .plain => "sub_" ++ Text.upperHex 8 s.address

/-- The instructions of all its blocks, in address order. -/
def instructions (g : Graph) (s : Subroutine) : List LinkedInstruction :=
  Order.sortBy (fun i => i.address) (s.blocks.flatMap fun b => (g.block b).instructions)

/-- Its blocks that return to the caller. -/
def exits (g : Graph) (s : Subroutine) : List BlockId :=
  s.blocks.filter fun b => ((g.block b).last?.map fun i => i.opcode) == some .retn

/-- Its calls in address order: where each stands and where it leads. -/
def calls (g : Graph) (s : Subroutine) : List (Int × Int) :=
  (s.instructions g).filterMap fun i =>
    if i.opcode = .jsr then i.target.map (i.address, ·) else none

def findOpcode? (g : Graph) (s : Subroutine) (opcode : Opcode) : Option LinkedInstruction :=
  (s.instructions g).find? fun i => i.opcode == opcode

def sorted (g : Graph) (s : Subroutine) : Subroutine := { s with blocks := g.byAddress s.blocks }

end Subroutine

end ScriptFlow
