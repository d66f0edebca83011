import ScriptFlow.CommandLine.Options
import ScriptFlow.Listing

/-! What the program does with its options, apart from reading and writing files. -/

namespace ScriptFlow.CommandLine

/-- What there is at a path. -/
inductive File where
  | missing
  | bytes (content : List UInt8)
  /-- Something that cannot be read, such as a directory. -/
  | unreadable
  deriving DecidableEq, Repr

/-- What a run ends with: the message of a failure, the lines printed, the lines logged, and the
listing with the path it goes to. -/
structure Report where
  failure : Option Text := none
  printed : List Text := []
  log : List Text := []
  listing : Option (Path × Text) := none

inductive Crash where
  /-- The level of the log was taken back. -/
  | noLevel
  /-- The table of engine routines is needed and its path was taken back. -/
  | noTable
  | unreadable (p : Path)
  | table (e : Engine.TableError)
  | flow (e : FlowError)
  | halt (h : Stack.Halt)
  | noName (p : Path)
  deriving DecidableEq, Repr

def Crash.message : Crash → Text
  | .noLevel => "the log has no level"
  | .noTable => "the table of engine routines has no path"
  | .unreadable p => p.text ++ " cannot be read"
  | .table e => e.message
  | .flow e => e.message
  | .halt (.missingOperand site) => "missing operand at " ++ Text.address site
  | .halt (.ownerless site) => "no subroutine at " ++ Text.address site
  | .halt _ => "stack analysis stopped"
  | .noName p => Text.quoted p.text ++ " has an empty name"

def logged (level : Level) (events : List Event) : List Text :=
  (events.filter fun e => level.rank ≤ e.level.rank).map Event.line

/-- The table of engine routines; a missing file is an empty table. -/
def loadTable : Option Path → File → Except Crash Engine.Table
  | none, _ => .error .noTable
  | some p, .unreadable => .error (.unreadable p)
  | some _, .missing => .ok {}
  | some _, .bytes content => (Engine.Table.ofBytes content).mapError .table

def analyzed (o : Options) (s : Session) (actions : File) :
    Except Crash (Session × List Text × List Event) :=
  if o.analyzeStack then do
    let table ← loadTable o.actions actions
    let (s, a, events) ← (s.analyze table).mapError .halt
    return (s, (a.error.map fun (e : Text) => "stack analysis failed: " ++ e).toList, events)
  else .ok (s, [], [])

def outputPath (o : Options) : Except Crash Path :=
  match o.output with
  | some p => .ok p
  | none =>
    match o.input.withSuffix? (".cfg.txt" : String) with
    | some p => .ok p
    | none => .error (.noName o.input)

/-- Run with what there is at the paths of the input and of the table of engine routines, and with a
log of some level. -/
def runLogged (o : Options) (level : Level) (input actions : File) : Except Crash Report :=
  match input with
  | .missing => .ok { failure := some ("missing input file: " ++ o.input.text) }
  | .unreadable => .error (.unreadable o.input)
  | .bytes image =>
    let (events, loaded) := Script.load image
    match loaded with
    | .error (.script e) =>
      .ok { failure := some ("failed to parse " ++ o.input.text ++ ": " ++ e.message)
            log := logged level events }
    | .error (.flow e) => .error (.flow e)
    | .ok script => do
      let (s, printed, more) ← analyzed o { script } actions
      let path ← outputPath o
      return {
        printed := printed ++ ["listing written to " ++ path.text]
        log := logged level (events ++ more)
        listing := some (path, Listing.render s !o.hideDeadEdges) }

/-- Run with what there is at the paths of the input and of the table of engine routines. Without a
level for the log nothing is done. -/
def run (o : Options) (input actions : File) : Except Crash Report :=
  match o.logLevel with
  | none => .error .noLevel
  | some level => runLogged o level input actions

end ScriptFlow.CommandLine
