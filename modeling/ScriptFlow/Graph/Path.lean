import ScriptFlow.Graph.Neighbours

/-! Searches along edges. A search keeps the blocks still to look at, the latest on top, and the
addresses it has seen. Each address is expanded once, so it looks at no more blocks than there are
edges, and at the one it starts from. -/

namespace ScriptFlow.Graph

/-- The edge stays in its subroutine, is live and leads forward. -/
def isForward (g : Graph) (id : BlockId) (e : Edge) : Bool :=
  !e.kind.crosses && e.kind != .dead && g.addressOf e.child > g.addressOf id

def linearSearch (g : Graph) (goal : BlockId) : Nat → List Int → List BlockId → Bool
  | 0, _, _ => false
  | _ + 1, _, [] => false
  | fuel + 1, seen, b :: rest =>
    if b = goal then true
    else if seen.contains (g.addressOf b) then linearSearch g goal fuel seen rest
    else
      let onward := ((g.edges b).filter (g.isForward b)).map Edge.child
      linearSearch g goal fuel (g.addressOf b :: seen) (onward.reverse ++ rest)

/-- Does a path of live, local, forward edges lead from `a` to `b`? -/
def hasLinearPath (g : Graph) (a b : BlockId) : Bool :=
  g.linearSearch b (g.edgeCount + 2) [] [a]

/-- Collect the addresses that live edges lead to. -/
def liveSearch (g : Graph) : Nat → List Int → List BlockId → List Int
  | 0, seen, _ => seen
  | _ + 1, seen, [] => seen
  | fuel + 1, seen, b :: rest =>
    if seen.contains (g.addressOf b) then liveSearch g fuel seen rest
    else
      let onward := ((g.edges b).filter fun e => e.kind != .dead).map Edge.child
      liveSearch g fuel (g.addressOf b :: seen) (onward.reverse ++ rest)

/-- The addresses reached from the root by live edges; none without a root. -/
def reached (g : Graph) (root : Option BlockId) : List Int :=
  g.liveSearch (g.edgeCount + 2) [] root.toList

/-- The listed blocks that no live path from the root leads to, in address order. -/
def unreachable (g : Graph) (listed : List BlockId) (root : Option BlockId) : List BlockId :=
  let seen := g.reached root
  g.byAddress (listed.filter fun b => !seen.contains (g.addressOf b))

end ScriptFlow.Graph
