import ScriptFlow.Event
import ScriptFlow.Graph.Basic

/-! Edges that can never be taken. Three rules mark edges dead, over and over until none applies:
a branch on a constant takes one arm only, a second test of a value already tested goes the same way
as the first, and a block that nothing leads to leads nowhere. -/

namespace ScriptFlow

inductive DeadRule where
  | constantCondition | repeatedTest | absorbed
  deriving DecidableEq, Repr

def DeadRule.name : DeadRule → String
  | .constantCondition => "constant_condition"
  | .repeatedTest => "repeated_test"
  | .absorbed => "absorbed"

namespace Block

def lastTwo? (b : Block) : Option (LinkedInstruction × LinkedInstruction) :=
  match b.instructions.reverse with
  | jump :: before :: _ => some (before, jump)
  | _ => none

/-- The opcode of a conditional jump on a copy of the top cell, which stays on the stack. -/
def peekJump? (b : Block) : Option Opcode :=
  match b.lastTwo? with
  | some (copy, jump) =>
    if copy.opcode = .cptopsp ∧ copy.operand = .cells (-4) 4 ∧ jump.opcode.isConditional then
      some jump.opcode
    else none
  | none => none

/-- The arm never taken by a conditional jump on an integer constant. -/
def constantArm? (b : Block) : Option EdgeKind :=
  match b.lastTwo? with
  | some (constant, jump) =>
    if jump.opcode.isConditional ∧ constant.opcode = .const ∧ constant.type = TypeByte.int then
      let isZero := constant.operand == .constant (.int 0)
      let taken := isZero == (jump.opcode == .jz)
      some (if taken then .whenFalse else .whenTrue)
    else none
  | none => none

end Block

namespace Graph

/-- The live edges into a block, each with the block it leaves. -/
def liveIncoming (g : Graph) (id : BlockId) : List (BlockId × EdgeKind) :=
  (g.block id).parents.eraseDups.flatMap fun p =>
    ((g.edges p).filter fun e => e.child == id && e.kind != .dead).map fun e => (p, e.kind)

/-- The kinds of edges of a block that a rule marks dead. -/
def condemns (g : Graph) (id : BlockId) : DeadRule → EdgeKind → Bool
  | .constantCondition, k =>
    let b := g.block id
    b.isTwoWay && b.constantArm? == some k
  | .repeatedTest, k =>
    let b := g.block id
    k == .whenFalse && b.instructions.length == 2 && b.isTwoWay &&
      match b.peekJump? with
      | none => false
      | some opcode =>
        let incoming := g.liveIncoming id
        !incoming.isEmpty && incoming.all fun (p, kind) =>
          kind == .whenTrue && (g.block p).peekJump? == some opcode
  | .absorbed, k =>
    k != .dead && !(g.block id).parents.isEmpty && (g.liveIncoming id).isEmpty

/-- Mark the edges of a block dead whose kind is condemned. -/
def bury (g : Graph) (id : BlockId) (condemned : EdgeKind → Bool) : Graph :=
  g.update id fun b =>
    { b with edges := b.edges.map fun e => if condemned e.kind then { e with kind := .dead } else e }

/-- Apply a rule to a block; the event tells that it changed something. -/
def applyRule (g : Graph) (id : BlockId) (rule : DeadRule) : Graph × List Event :=
  let condemned := g.condemns id rule
  if (g.edges id).any fun e => condemned e.kind then
    let g := g.bury id condemned
    (g, [.deadEdges rule.name (g.describe id)])
  else (g, [])

def applyRules (id : BlockId) : List DeadRule → Graph → Graph × List Event
  | [], g => (g, [])
  | rule :: rules, g =>
    let (g, first) := g.applyRule id rule
    let (g, rest) := applyRules id rules g
    (g, first ++ rest)

/-- The rules for a block. Execution starts in the root, so nothing about the edges into it can make
its own dead. -/
def rulesFor (root : Option BlockId) (id : BlockId) : List DeadRule :=
  if root = some id then [.constantCondition] else [.constantCondition, .repeatedTest, .absorbed]

def deadRound (root : Option BlockId) : List BlockId → Graph → Graph × List Event
  | [], g => (g, [])
  | id :: ids, g =>
    let (g, first) := applyRules id (rulesFor root id) g
    let (g, rest) := deadRound root ids g
    (g, first ++ rest)

structure DeadReport where
  graph : Graph
  rounds : Nat
  events : List Event

/-- Rounds until one changes nothing. -/
def deadRounds (listed : List BlockId) (root : Option BlockId) : Nat → Graph → DeadReport
  | 0, g => ⟨g, 0, []⟩
  | fuel + 1, g =>
    let (g, events) := deadRound root listed g
    if events.isEmpty then ⟨g, 0, []⟩
    else
      let rest := deadRounds listed root fuel g
      ⟨rest.graph, rest.rounds + 1, events ++ rest.events⟩

/-- Mark the edges that can never be taken. Each round but the last marks at least one live edge. -/
def markDead (g : Graph) (listed : List BlockId) (root : Option BlockId) : DeadReport :=
  deadRounds listed root (g.liveEdges + 1) g

end Graph

end ScriptFlow
