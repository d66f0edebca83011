import ScriptFlow.Flow.Discovery
import ScriptFlow.Subroutine.Basic

/-! Cutting code into blocks once every start is known, and joining the blocks. -/

namespace ScriptFlow.Flow

/-- The first start behind a position, or the end of the code. -/
def nextStart (starts : List Start) (p n : Nat) : Nat :=
  starts.foldl (fun m s => if p < s.position ∧ s.position < m then s.position else m) n

/-- The instructions of the block that starts at a position. -/
def cut (code : List LinkedInstruction) (starts : List Start) (p : Nat) : List LinkedInstruction :=
  (code.drop p).take (nextStart starts p code.length - p)

/-- The blocks, without edges, in the order their starts were found. -/
def blocksOf (code : List LinkedInstruction) (starts : List Start) : Graph :=
  starts.foldl (fun g s =>
    g.add ((code[s.position]?.map fun i => i.address).getD 0) (cut code starts s.position) s.owner) {}

def blockOf (starts : List Start) (p : Nat) : BlockId :=
  match startOf? starts p with
  | some s => starts.idxOf s
  | none => 0

def joinBlocks (starts : List Start) (jumps : List Jump) (g : Graph) : Graph :=
  jumps.foldl (fun g j => g.link (blockOf starts j.source) (blockOf starts j.target) j.kind) g

/-- The blocks of a subroutine that return to its caller, in the order they were found. -/
def exitsOf (g : Graph) (root : Int) : List BlockId :=
  g.ids.filter fun b =>
    (g.block b).owner == some root && ((g.block b).last?.map fun i => i.opcode) == some .retn

/-- Lead every exit of a called subroutine back to where the call returns to. -/
def joinReturns (starts : List Start) (calls : List Call) (g : Graph) : Graph :=
  calls.foldl (fun g c =>
    (exitsOf g c.callee).foldl (fun g b => g.link b (blockOf starts c.back) .back) g) g

def assemble (code : List LinkedInstruction) (d : Discovery) : Graph :=
  joinReturns d.starts d.calls (joinBlocks d.starts d.jumps (blocksOf code d.starts))

/-- The subroutine at a root: the blocks it owns and the calls to it. -/
def subroutineOf (g : Graph) (calls : List Call) (root : Int × SubroutineKind) : Subroutine :=
  { address := root.1
    kind := root.2
    entry := g.ids.find? fun b => g.addressOf b == root.1
    blocks := g.ids.filter fun b => (g.block b).owner == some root.1
    callers := (calls.filter fun c => c.callee == root.1).map Call.site }

/-- A control flow graph with its subroutines, in address order. -/
structure Built where
  graph : Graph
  subroutines : List Subroutine
  events : List Event

/-- Divide linked code into blocks, starting from subroutines at the given addresses. The code is
freshly linked: none of its instructions belongs to a block yet, so what is walked is known from this
search alone. -/
def build (code : List LinkedInstruction) (roots : List (Int × SubroutineKind)) :
    Except FlowError Built := do
  let d ← discover ⟨code, roots.map Prod.fst⟩
  let graph := assemble code d
  return {
    graph
    subroutines := (Order.sortBy Prod.fst roots).map (subroutineOf graph d.calls)
    events := d.events ++ [.constructed graph.size code.length] }

end ScriptFlow.Flow
