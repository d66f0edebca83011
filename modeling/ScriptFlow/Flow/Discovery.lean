import ScriptFlow.Event
import ScriptFlow.Graph.Basic
import ScriptFlow.Sequence

/-! Finding the blocks of linked code. Walks start at the roots, in address order, and then at code no
walk has come to. A walk claims instructions up to one that ends a block or up to the start of
another block. A branch into the middle of what was walked already adds a start there: blocks are cut
only in the end, when all starts are known, so an edge is noted by the position of the instruction it
leaves, which never changes.

Positions count the instructions of the code; a root is the address of a subroutine. -/

namespace ScriptFlow

inductive FlowError where
  | noInstruction (address : Int)
  | unknownSubroutine (address : Int)
  deriving DecidableEq, Repr

def FlowError.message : FlowError → String
  | .noInstruction a => "no instruction at " ++ Text.address a
  | .unknownSubroutine a => "no subroutine at " ++ Text.address a

namespace Flow

/-- Where a block starts, and the subroutine that owns it. -/
structure Start where
  position : Nat
  owner : Option Int
  deriving DecidableEq, Repr

/-- An edge from the block that holds one position to the block that starts at another. -/
structure Jump where
  source : Nat
  target : Nat
  kind : EdgeKind
  deriving DecidableEq, Repr

/-- A call: the address of the instruction, that of the subroutine, and the position control returns
to. -/
structure Call where
  site : Int
  callee : Int
  back : Nat
  deriving DecidableEq, Repr

/-- All that walks have found so far, each list in the order of the finds. -/
structure Discovery where
  starts : List Start := []
  walked : List Nat := []
  pending : List Nat := []
  jumps : List Jump := []
  calls : List Call := []
  events : List Event := []
  deriving DecidableEq, Repr

structure Layout where
  code : List LinkedInstruction
  roots : List Int

namespace Layout

def position? (l : Layout) (a : Int) : Option Nat := l.code.findIdx? fun i => i.address == a

def root? (l : Layout) (p : Nat) : Option Int :=
  (l.code[p]?.map fun i => i.address).filter l.roots.contains

end Layout

/-- Of the starts at or before a position the one closest to it. -/
def startOf? : List Start → Nat → Option Start
  | [], _ => none
  | s :: rest, p =>
    match startOf? rest p with
    | none => if s.position ≤ p then some s else none
    | some t => if s.position ≤ p ∧ t.position < s.position then some s else some t

namespace Discovery

def starts? (d : Discovery) (p : Nat) : Bool := d.starts.any fun s => s.position == p

def ownerOf (d : Discovery) (p : Nat) : Option Int := (startOf? d.starts p).bind Start.owner

/-- Let a block start at a position. In the middle of a walked block it takes over the rest of that
block, with its owner, and the part in front leads into it; elsewhere it still has to be walked, and a
root owns itself. -/
def request (l : Layout) (p : Nat) (owner : Option Int) (d : Discovery) : Discovery :=
  if d.starts? p then d
  else if d.walked.contains p then
    { d with
      starts := d.starts ++ [⟨p, d.ownerOf p⟩]
      jumps := d.jumps ++ [⟨p - 1, p, .unconditional⟩] }
  else
    { d with
      starts := d.starts ++ [⟨p, (l.root? p).or owner⟩]
      pending := d.pending ++ [p] }

def requestAt (l : Layout) (a : Int) (owner : Option Int) (d : Discovery) :
    Except FlowError (Nat × Discovery) :=
  match l.position? a with
  | some p => .ok (p, d.request l p owner)
  | none => .error (.noInstruction a)

def jump (source target : Nat) (kind : EdgeKind) (d : Discovery) : Discovery :=
  { d with jumps := d.jumps ++ [⟨source, target, kind⟩] }

end Discovery

inductive Ending where
  /-- At an instruction that ends a block. -/
  | branch (position : Nat) (i : LinkedInstruction)
  /-- In front of another block. -/
  | meets (position : Nat)
  /-- At the last instruction of the code. -/
  | runsOff (i : LinkedInstruction)

/-- The positions a walk claims, from `p` on, and how it ends. `code` is what stands from `p` on. -/
def run (stops : Nat → Bool) : Nat → List LinkedInstruction → List Nat × Option Ending
  | _, [] => ([], none)
  | p, i :: rest =>
    if i.opcode.endsBlock then ([p], some (.branch p i))
    else if rest.isEmpty then ([p], some (.runsOff i))
    else if stops (p + 1) then ([p], some (.meets p))
    else
      let (claimed, ending) := run stops (p + 1) rest
      (p :: claimed, ending)

/-- The addresses an instruction that ends a block leads to, and how. A return leads back to its
callers, which are known only in the end. -/
def successors (i : LinkedInstruction) : List (Int × EdgeKind) :=
  let onward (kind : EdgeKind) : List (Int × EdgeKind) := i.target.toList.map (·, kind)
  let through (kind : EdgeKind) : List (Int × EdgeKind) := i.follower.toList.map (·, kind)
  match i.opcode with
  | .jmp => onward .unconditional
  | .jz | .jnz => onward .whenTrue ++ through .whenFalse
  | .jsr => onward .call
  | .storestate => onward .state ++ through .unconditional
  | _ => []

/-- Follow the branches of the instruction at `p`, one after the other. -/
def branches (l : Layout) (p : Nat) (owner : Option Int) :
    List (Int × EdgeKind) → Discovery → Except FlowError Discovery
  | [], d => .ok d
  | (a, kind) :: rest, d => do
    let (q, d) ← d.requestAt l a owner
    branches l p owner rest (d.jump p q kind)

/-- Note a call, and let a block start where it returns to. -/
def noteCall (l : Layout) (owner : Option Int) (i : LinkedInstruction) (d : Discovery) :
    Except FlowError Discovery :=
  match i.opcode, i.target, i.follower with
  | .jsr, some callee, some back =>
    if l.roots.contains callee then do
      let (q, d) ← d.requestAt l back owner
      return { d with calls := d.calls ++ [⟨i.address, callee, q⟩] }
    else .error (.unknownSubroutine callee)
  | _, _, _ => .ok d

def walk (l : Layout) (p : Nat) (d : Discovery) : Except FlowError Discovery :=
  let owner := d.ownerOf p
  let (claimed, ending) := run (fun q => d.starts? q || (l.root? q).isSome) p (l.code.drop p)
  let d := { d with walked := d.walked ++ claimed }
  match ending with
  | some (.branch q i) => do
    let d ← branches l q owner (successors i) d
    noteCall l owner i d
  | some (.meets q) => .ok ((d.request l (q + 1) owner).jump q (q + 1) .unconditional)
  | some (.runsOff i) => .ok { d with events := d.events ++ [.runsOff i.address] }
  | none => .ok d

/-- Walk until nothing is pending. Each position is pending once at most. -/
def drain (l : Layout) : Nat → Discovery → Except FlowError Discovery
  | 0, d => .ok d
  | fuel + 1, d =>
    match d.pending with
    | [] => .ok d
    | p :: rest => do
      let d ← walk l p { d with pending := rest }
      drain l fuel d

def fromRoot (l : Layout) (d : Discovery) (root : Int) : Except FlowError Discovery := do
  let (_, d) ← d.requestAt l root (some root)
  drain l (l.code.length + 1) d

/-- Walk from a position no walk has come to. -/
def fromOrphan (l : Layout) (d : Discovery) (p : Nat) : Except FlowError Discovery :=
  if d.walked.contains p || d.starts? p then .ok d
  else drain l (l.code.length + 1) (d.request l p none)

def discover (l : Layout) : Except FlowError Discovery := do
  let d ← (Order.sortBy id l.roots).foldlM (fromRoot l) {}
  (List.range l.code.length).foldlM (fromOrphan l) d

end Flow

end ScriptFlow
