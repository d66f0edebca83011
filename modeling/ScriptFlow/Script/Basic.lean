import ScriptFlow.Flow.Assemble
import ScriptFlow.Graph.Dead
import ScriptFlow.Graph.Path
import ScriptFlow.Instruction.Decode
import ScriptFlow.Subroutine.Roles

/-! Compiled scripts. An image starts with eight magic bytes, a marker and the size of the script,
header included; the instructions fill the rest. Loading decodes and links them, divides them into
blocks, marks dead edges and finds the roles of the subroutines. -/

namespace ScriptFlow

/-- Why an image cannot be loaded. Linked code always divides into blocks, so the second cause never
arises; see `FlowError`. -/
inductive LoadError where
  | script (e : ScriptError)
  | flow (e : FlowError)
  deriving DecidableEq, Repr

def LoadError.message : LoadError → String
  | .script e => e.message
  | .flow e => e.message

/-- A loaded script: its instructions, its control flow graph and its subroutines in address order. -/
structure Script where
  size : Nat
  code : List LinkedInstruction := []
  graph : Graph := {}
  subroutines : List Subroutine := []
  roles : Roles := {}
  deriving DecidableEq, Repr

namespace Script

/-- The bytes of `NCS V1.0`. -/
def magic : List UInt8 := [0x4E, 0x43, 0x53, 0x20, 0x56, 0x31, 0x2E, 0x30]

/-- The byte between the magic bytes and the size. -/
def marker : UInt8 := 0x42

def headerSize : Nat := 13

/-- The declared size of an image, once its header is found right. -/
def declaredSize (image : List UInt8) : Except ScriptError Nat :=
  let length := image.length
  let size := Wire.unsigned ((image.drop 9).take 4)
  if length < headerSize then .error (.shortHeader length)
  else if image.take 8 ≠ magic then .error (.badMagic (image.take 8))
  else if image[8]? ≠ some marker then .error (.badMarker ((image[8]?.map UInt8.toNat).getD 0))
  else if size > length then .error (.oversized size length)
  else if size < headerSize then .error (.undersized size)
  else .ok size

/-- The subroutine that starts at an instruction because something calls it or stores it as a
continuation. -/
def rootOf? (i : LinkedInstruction) : Option (Int × SubroutineKind) :=
  match i.tag with
  | .subroutine => some (i.address, .plain)
  | .state => some (i.address, .state)
  | .plain | .label => none

/-- The entry points of linked code: its first instruction and every target of a call or of a stored
continuation. -/
def rootsOf : List LinkedInstruction → List (Int × SubroutineKind)
  | [] => []
  | i :: rest => (i.address, .plain) :: rest.filterMap rootOf?

def rootBlock? (code : List LinkedInstruction) (g : Graph) : Option BlockId :=
  code.head?.bind fun i => g.holder? i.address

def ofCode (size : Nat) (code : List LinkedInstruction) : Except FlowError (Script × List Event) :=
  if code.isEmpty then .ok ({ size }, [])
  else do
    let built ← Flow.build code (rootsOf code)
    let report := built.graph.markDead built.graph.ids (rootBlock? code built.graph)
    let graph := report.graph
    let found := built.subroutines.map (Subroutine.sorted graph)
    let roles := Roles.identify graph found
    return ({ size, code, graph, subroutines := roles.apply found, roles },
      built.events ++ report.events ++ roles.events found)

/-- Decode and link the instructions of an image of the given size, which they must fill. -/
def linkedCode (image : List UInt8) (size : Nat) : Except ScriptError (List LinkedInstruction) := do
  let instructions ← Instruction.decode image headerSize size
  let code ← Code.ofList instructions
  if headerSize + code.size ≠ size then .error (.uncovered code.size (size - headerSize))
  else code.link

/-- Load a script. The events are those up to the error, if there is one. -/
def load (image : List UInt8) : List Event × Except LoadError Script :=
  match declaredSize image with
  | .error e => ([], .error (.script e))
  | .ok size =>
    let excess := if size < image.length then [.excessBytes size image.length] else []
    match linkedCode image size with
    | .error e => (excess, .error (.script e))
    | .ok code =>
      match ofCode size code with
      | .error e => (excess, .error (.flow e))
      | .ok (s, events) => (excess ++ events, .ok s)

/-- The blocks in address order. -/
def blocks (s : Script) : List BlockId := s.graph.byAddress s.graph.ids

/-- The block execution starts in; an empty script has none. -/
def root? (s : Script) : Option BlockId := rootBlock? s.code s.graph

def instruction? (s : Script) (a : Int) : Option LinkedInstruction :=
  s.code.find? fun i => i.address == a

def block? (s : Script) (a : Int) : Option BlockId := s.graph.holder? a

def unreachable (s : Script) : List BlockId := s.graph.unreachable s.blocks s.root?

def inRole (s : Script) (role : Option Nat) : Option Subroutine := role.bind fun n => s.subroutines[n]?

end Script

end ScriptFlow
