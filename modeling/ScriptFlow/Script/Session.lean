import ScriptFlow.Script.Basic
import ScriptFlow.Stack.Machine

/-! Looking at a loaded script. The stack is analyzed once at most; the kinds of edges may be changed
by hand, and dead edges looked for again. -/

namespace ScriptFlow

structure Session where
  script : Script
  analysis : Option Stack.Analysis := none

namespace Session

def program (s : Session) (table : Engine.Table) : Stack.Program :=
  ⟨s.script.graph, s.script.subroutines, table⟩

/-- Analyze the stack, unless that was done before; then the earlier result stands, whatever the
table. -/
def analyze (s : Session) (table : Engine.Table) :
    Except Stack.Halt (Session × Stack.Analysis × List Event) :=
  match s.analysis with
  | some a => .ok (s, a, [])
  | none => do
    let start := s.script.inRole s.script.roles.start
    let (a, events) ← Stack.analyze (s.program table) start
    return ({ s with analysis := some a }, a, events)

/-- An analysis was made and succeeded. -/
def hasAnalysis (s : Session) : Bool := s.analysis.any Stack.Analysis.success

/-- Overwrite the kind of an edge of a block; a negative index counts from the last edge. -/
def setEdge? (s : Session) (b : BlockId) (index : Int) (kind : EdgeKind) : Option Session :=
  ((s.script.graph.block b).edgeAt? index).map fun i =>
    { s with script := { s.script with graph := s.script.graph.setKind b i kind } }

/-- Look for dead edges again, in address order, with or without a root. The answer has the number of
rounds that changed something. -/
def markDead (s : Session) (rooted : Bool) : Session × Nat :=
  let root := if rooted then s.script.root? else none
  let report := s.script.graph.markDead s.script.blocks root
  ({ s with script := { s.script with graph := report.graph } }, report.rounds)

end Session

end ScriptFlow
