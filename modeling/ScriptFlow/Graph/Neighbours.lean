import ScriptFlow.Graph.Basic
import ScriptFlow.Sequence

/-! Questions about single edges and about blocks next to each other. -/

namespace ScriptFlow.Graph

/-- The children of a block; calls, returns and stored continuations only on request. -/
def children (g : Graph) (across : Bool) (id : BlockId) : List BlockId :=
  ((g.edges id).filter fun e => across || !e.kind.crosses).map Edge.child

/-- Children at or before the block: jumped to backwards. -/
def earlierChildren (g : Graph) (across : Bool) (id : BlockId) : List BlockId :=
  (g.children across id).filter fun c => g.addressOf c ≤ g.addressOf id

def laterChildren (g : Graph) (across : Bool) (id : BlockId) : List BlockId :=
  (g.children across id).filter fun c => g.addressOf c > g.addressOf id

/-- Each parent once, in the order of its first edge; a parent that only calls, returns or stores a
continuation only on request. -/
def distinctParents (g : Graph) (across : Bool) (id : BlockId) : List BlockId :=
  ((g.block id).parents.filter fun p =>
    across || (g.edges p).any fun e => e.child == id && !e.kind.crosses).eraseDups

def earlierParents (g : Graph) (across : Bool) (id : BlockId) : List BlockId :=
  (g.distinctParents across id).filter fun p => g.addressOf p < g.addressOf id

/-- Parents at or behind the block: they jump backwards. -/
def laterParents (g : Graph) (across : Bool) (id : BlockId) : List BlockId :=
  (g.distinctParents across id).filter fun p => g.addressOf p ≥ g.addressOf id

/-- The position of the first edge from `parent` to `child`. -/
def edgeIndex? (g : Graph) (parent child : BlockId) : Option Nat :=
  (g.edges parent).findIdx? fun e => e.child == child

def edgeKind? (g : Graph) (parent child : BlockId) : Option EdgeKind :=
  ((g.edges parent).find? fun e => e.child == child).map Edge.kind

def noEdge (g : Graph) (parent child : BlockId) : String :=
  "block " ++ Text.address (g.addressOf child) ++ " is not a child of block " ++
    Text.address (g.addressOf parent)

/-- Of the listed blocks the first with the next higher address. -/
def next? (g : Graph) (listed : List BlockId) (id : BlockId) : Option BlockId :=
  Order.firstMin? g.addressOf (listed.filter fun b => g.addressOf b > g.addressOf id)

/-- Of the listed blocks the first with the next lower address. -/
def previous? (g : Graph) (listed : List BlockId) (id : BlockId) : Option BlockId :=
  Order.firstMax? g.addressOf (listed.filter fun b => g.addressOf b < g.addressOf id)

def byAddress (g : Graph) (listed : List BlockId) : List BlockId :=
  Order.sortBy g.addressOf listed

end ScriptFlow.Graph
