import ScriptFlow.Code.Link
import ScriptFlow.Sequence

/-! Control flow graphs: blocks of instructions joined by edges of several kinds. A block is named by
its position in the graph, so that two blocks may share an address and still be told apart. Edges are
only ever added by `Graph.link`, which enters them on both sides. -/

namespace ScriptFlow

/-- How control goes from a block to one of its children. -/
inductive EdgeKind where
  | unconditional | whenTrue | whenFalse | call | back | state | dead
  deriving DecidableEq, Repr

namespace EdgeKind

def name : EdgeKind → String
  | .unconditional => "unconditional"
  | .whenTrue => "conditional-true"
  | .whenFalse => "conditional-false"
  | .call => "function-call"
  | .back => "function-return"
  | .state => "store-state"
  | .dead => "dead"

def all : List EdgeKind :=
  [.unconditional, .whenTrue, .whenFalse, .call, .back, .state, .dead]

def ofName? (s : String) : Option EdgeKind := all.find? fun k => k.name == s

/-- One arm of a two-way branch. -/
def isConditional : EdgeKind → Bool
  | .whenTrue | .whenFalse => true
  | _ => false

/-- The edge leads from one subroutine into another. -/
def crosses : EdgeKind → Bool
  | .call | .back | .state => true
  | _ => false

end EdgeKind

/-- The name of a block: its position in the graph. -/
abbrev BlockId := Nat

structure Edge where
  child : BlockId
  kind : EdgeKind
  deriving DecidableEq, Repr

/-- A run of instructions with a single entry and a single exit. The owner is the address of the
subroutine the block belongs to. -/
structure Block where
  address : Int
  instructions : List LinkedInstruction := []
  owner : Option Int := none
  parents : List BlockId := []
  edges : List Edge := []
  deriving DecidableEq, Repr

namespace Block

def last? (b : Block) : Option LinkedInstruction := b.instructions.getLast?

/-- The address behind the last instruction; an empty block ends where it starts. -/
def stop (b : Block) : Int := (b.last?.map fun i => i.stop).getD b.address

def kinds (b : Block) : List EdgeKind := b.edges.map Edge.kind

/-- The block branches into two live arms. -/
def isTwoWay (b : Block) : Bool :=
  !b.kinds.contains .dead && b.kinds.any EdgeKind.isConditional

/-- The block always goes on with the same child: it has a single unconditional edge, or is a branch
with two edges of which one is dead. -/
def isOneWay (b : Block) : Bool :=
  match b.kinds with
  | [k] => k == .unconditional
  | [k, .dead] => k == .unconditional || k.isConditional
  | [.dead, k] => k == .unconditional || k.isConditional
  | _ => false

/-- The edge at a position; minus one is the last edge. -/
def edgeAt? (b : Block) (index : Int) : Option Nat := Position.index? b.edges.length index

end Block

structure Graph where
  blocks : Array Block := #[]
  deriving DecidableEq, Repr

namespace Graph

def size (g : Graph) : Nat := g.blocks.size

def ids (g : Graph) : List BlockId := List.range g.size

/-- The block with a name; a name that is not in use stands for an empty block. -/
def block (g : Graph) (id : BlockId) : Block := g.blocks.getD id { address := 0 }

def addressOf (g : Graph) (id : BlockId) : Int := (g.block id).address

def edges (g : Graph) (id : BlockId) : List Edge := (g.block id).edges

/-- Add a block that no edge touches yet. -/
def add (g : Graph) (address : Int) (instructions : List LinkedInstruction) (owner : Option Int) :
    Graph :=
  ⟨g.blocks.push { address, instructions, owner }⟩

def update (g : Graph) (id : BlockId) (f : Block → Block) : Graph := ⟨g.blocks.modify id f⟩

/-- Add an edge, on the side of the parent and on that of the child. -/
def link (g : Graph) (parent child : BlockId) (kind : EdgeKind) : Graph :=
  (g.update parent fun b => { b with edges := b.edges ++ [⟨child, kind⟩] }).update child
    fun b => { b with parents := b.parents ++ [parent] }

def setKind (g : Graph) (id : BlockId) (index : Nat) (kind : EdgeKind) : Graph :=
  g.update id fun b => { b with edges := b.edges.modify index fun e => { e with kind } }

/-- A count taken over all blocks. -/
def total (count : Block → Nat) (g : Graph) : Nat :=
  g.blocks.toList.foldr (fun b n => count b + n) 0

def liveEdges (g : Graph) : Nat := g.total fun b => b.edges.countP fun e => e.kind != .dead

def edgeCount (g : Graph) : Nat := g.total fun b => b.edges.length

def instructionCount (g : Graph) : Nat := g.total fun b => b.instructions.length

/-- The block that holds the instruction at an address. -/
def holder? (g : Graph) (a : Int) : Option BlockId :=
  g.blocks.findIdx? fun b => b.instructions.any fun i => i.address == a

/-- A block in one line: where it is and where it leads. -/
def describe (g : Graph) (id : BlockId) : String :=
  let b := g.block id
  let edges := b.edges.map fun e => e.kind.name ++ "->" ++ Text.address (g.addressOf e.child)
  "block " ++ Text.address b.address ++ "-" ++ Text.address b.stop ++ " instructions=" ++
    toString b.instructions.length ++ " children=[" ++ ", ".intercalate edges ++ "]"

end Graph

end ScriptFlow
