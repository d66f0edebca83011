import ScriptFlow.Event
import ScriptFlow.Stack.Exec
import ScriptFlow.Subroutine.Basic

/-! The stack analysis of a script, step by step. It follows every live edge from the start, and calls
into the callee with the stack of the caller. A frame is a subroutine being analyzed; its blocks are
taken in the order they were reached. When a call meets a subroutine whose effect is not known yet, a
frame is put on top, and the call is taken up again once that frame is gone. Each block is walked once:
reaching it again only compares depths. -/

namespace ScriptFlow.Stack

structure Program where
  graph : Graph
  subroutines : List Subroutine
  table : Engine.Table

namespace Program

def subroutine? (p : Program) (a : Int) : Option Subroutine :=
  p.subroutines.find? fun s => s.address == a

def ownerOf? (p : Program) (b : BlockId) : Option Subroutine :=
  (p.graph.block b).owner.bind p.subroutine?

def holder? (p : Program) (a : Option Int) : Option BlockId := a.bind p.graph.holder?

def callee? (p : Program) (i : LinkedInstruction) : Option Subroutine :=
  (p.holder? i.target).bind p.ownerOf?

end Program

inductive Cursor where
  /-- Between two blocks. -/
  | idle
  /-- Inside a block, in front of the instructions left. -/
  | running (block : BlockId) (rest : List LinkedInstruction) (stack : Cells)
  /-- Behind a block, with the edges left to follow. -/
  | leaving (edges : List Edge) (stack : Cells)
  deriving DecidableEq, Repr

/-- A subroutine being analyzed: the depth of the stack it was entered with, what it has written below
it, the depth it returned with, relative to that, and the blocks still to be walked. -/
structure Frame where
  subroutine : Subroutine
  height : Nat
  writes : Writes := []
  delta : Option Int := none
  pending : List (BlockId × Cells) := []
  cursor : Cursor := .idle
  deriving DecidableEq, Repr

namespace Sim

/-- Reach a block with a stack: the first time it is put in line, later the depth must agree. -/
def enqueue (p : Program) (b : BlockId) (stack : Cells) (f : Frame) : Sim Frame := do
  match ((← get).progressOf b).depth? with
  | some known =>
    if known = stack.length then return f
    else throw (.fault (.depth (p.graph.addressOf b) stack.length known))
  | none =>
    modify fun s => s.setProgress b (.inProgress stack.length)
    return { f with pending := f.pending ++ [(b, stack)] }

def enter (p : Program) (site : Int) (sub : Subroutine) (stack : Cells) : Sim Frame := do
  if (← get).active.contains sub.address then throw (.fault (.recursion sub.name))
  else
    match sub.entry with
    | none => throw (.ownerless site)
    | some entry =>
      modify fun s => { s with active := sub.address :: s.active }
      enqueue p entry stack { subroutine := sub, height := stack.length }

/-- Close a frame whose blocks are all walked: its effect is known from now on. -/
def close (f : Frame) : Sim Unit :=
  modify fun s =>
    { s with
      active := s.active.erase f.subroutine.address
      effects := s.effects ++ [(f.subroutine.address, ⟨f.delta, f.writes⟩)] }

def noteReturn (stack : Cells) (f : Frame) : Sim Frame := do
  let delta : Int := (stack.length : Int) - f.height
  match f.delta with
  | some known =>
    if known = delta then return f
    else throw (.fault (.delta f.subroutine.name known delta))
  | none => return { f with delta := some delta }

/-- Come to the end of a block. A return ends the path; behind a call it goes on if the callee
returns. -/
def finish (p : Program) (b : BlockId) (stack : Cells) (f : Frame) : Sim Frame := do
  modify fun s => s.setProgress b (s.progressOf b).finish
  let block := p.graph.block b
  match block.last? with
  | none => throw (.ownerless block.address)
  | some last =>
    if last.opcode = .retn then
      let f ← noteReturn stack f
      return { f with cursor := .idle }
    else if last.opcode = .jsr then
      match p.callee? last, p.holder? last.follower with
      | some callee, some next =>
        match (← get).effectOf? callee.address with
        | some ⟨some _, _⟩ =>
          let f ← enqueue p next stack f
          return { f with cursor := .idle }
        | some ⟨none, _⟩ => return { f with cursor := .idle }
        | none => throw (.ownerless last.address)
      | _, _ => throw (.ownerless last.address)
    else return { f with cursor := .leaving block.edges stack }

/-- One step of the innermost frame; the answer is the frames then. -/
def step (p : Program) (f : Frame) (outer : List Frame) : Sim (List Frame) := do
  match f.cursor with
  | .idle =>
    match f.pending with
    | [] =>
      close f
      return outer
    | (b, stack) :: pending =>
      return { f with pending, cursor := .running b (p.graph.block b).instructions stack } :: outer
  | .running b [] stack =>
    let f ← finish p b stack f
    return f :: outer
  | .running b (i :: rest) stack =>
    if i.opcode = .jsr then
      match p.callee? i with
      | none => throw (.ownerless i.address)
      | some callee =>
        match (← get).effectOf? callee.address with
        | some effect =>
          let stack ← replay i.toInstruction effect stack
          return { f with cursor := .running b rest stack } :: outer
        | none =>
          let inner ← enter p i.address callee stack
          return inner :: f :: outer
    else
      let (stack, writes) ← exec p.table f.height i.toInstruction stack f.writes
      return { f with writes, cursor := .running b rest stack } :: outer
  | .leaving [] _ => return { f with cursor := .idle } :: outer
  | .leaving (e :: edges) stack =>
    let onward := { f with cursor := .leaving edges stack }
    if e.kind = .dead ∨ e.kind = .back then return onward :: outer
    else if e.kind = .state then
      match p.ownerOf? e.child with
      | none => throw (.ownerless (p.graph.addressOf e.child))
      | some sub =>
        match (← get).effectOf? sub.address with
        | some _ => return onward :: outer
        | none =>
          let inner ← enter p (p.graph.addressOf e.child) sub stack
          return inner :: f :: outer
    else
      let onward ← enqueue p e.child stack onward
      return onward :: outer

def run (p : Program) : Nat → List Frame → Sim Unit
  | _, [] => return
  | 0, _ :: _ => throw .exhausted
  | fuel + 1, f :: outer => do
    let frames ← step p f outer
    run p fuel frames

end Sim

/-- More steps than an analysis can take: each block is picked, left and finished once, each
instruction and each edge is looked at twice at most, and each frame that they open is closed once. -/
def Program.steps (p : Program) : Nat :=
  3 * (p.graph.size + p.graph.instructionCount + p.graph.edgeCount) + 5

/-- The result of an analysis: what was gathered, and the fault that stopped it, if one did. -/
structure Analysis where
  error : Option Text
  state : State
  deriving DecidableEq, Repr

namespace Analysis

def success (a : Analysis) : Bool := a.error.isNone

/-- The depth of the stack a block was entered with. -/
def depthAt (a : Analysis) (b : BlockId) : Option Nat := (a.state.progressOf b).depth?

end Analysis

/-- Analyze a script from one of its subroutines, which must have an entry. -/
def analyze (p : Program) (start : Option Subroutine) : Except Halt (Analysis × List Event) :=
  let initial : State := { progress := Array.replicate p.graph.size .untouched }
  match start.filter fun s => s.entry.isSome with
  | none => .ok (⟨some "script has no start subroutine", initial⟩, [])
  | some sub =>
    match (do Sim.run p p.steps [← Sim.enter p sub.address sub []] : Sim Unit) initial with
    | .ok _ s => .ok (⟨none, s⟩, [.stackAnalyzed s.space.size s.globals.length])
    | .error (.fault f) s => .ok (⟨some f.message, s⟩, [.stackFailed f.message])
    | .error halt _ => .error halt

end ScriptFlow.Stack
