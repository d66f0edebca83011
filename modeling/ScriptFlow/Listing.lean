import ScriptFlow.Script.Session

/-! The listing of a script: a summary, then its subroutines block by block, then code that belongs to
none, then the blocks that cannot be reached. -/

namespace ScriptFlow.Listing

def roleLine (label : String) (sub : Option Subroutine) : String :=
  "; " ++ label ++ ": " ++ (sub.map fun s => Text.address s.address).getD "-"

def analysisLine (a : Stack.Analysis) : Text :=
  let status : Text := match a.error with
    | none => "ok"
    | some e => "failed (" ++ e ++ ")"
  "; stack analysis: " ++ status ++ ", " ++ toString a.state.space.size ++ " variables, " ++
    toString a.state.globals.length ++ " globals"

def summary (script : Script) : List String :=
  ["; script size " ++ toString script.size ++ " bytes, " ++ toString script.code.length ++
      " instructions",
   roleLine "start" (script.inRole script.roles.start),
   roleLine "global" (script.inRole script.roles.global),
   roleLine "main" (script.inRole script.roles.main)] ++
  (if script.roles.multipleGlobal then
    ["; warning: more than one global initialiser candidate"] else [])

/-- The line that opens a block: its address, where control comes from, and the depth of the stack. -/
def blockHeader (s : Session) (b : BlockId) : String :=
  let g := s.script.graph
  let parents := (g.block b).parents
  let origin :=
    if parents.isEmpty then "" else " from " ++ Text.addresses (parents.map g.addressOf)
  let depth := match s.analysis.bind fun a => a.depthAt b with
    | some n => " depth=" ++ toString n
    | none => ""
  "  ; block " ++ Text.address (g.addressOf b) ++ origin ++ depth

def edgeLine (g : Graph) (e : Edge) : String :=
  "    ; -> " ++ Text.address (g.addressOf e.child) ++ " (" ++ e.kind.name ++ ")"

def shownEdges (showDead : Bool) (edges : List Edge) : List Edge :=
  edges.filter fun e => showDead || e.kind != .dead

/-- The lines of a block: its header, its instructions and its edges. -/
def blockLines (s : Session) (showDead : Bool) (b : BlockId) : List String :=
  let g := s.script.graph
  blockHeader s b :: (g.block b).instructions.map (fun i => "    " ++ i.line) ++
    (shownEdges showDead (g.edges b)).map (edgeLine g)

def subroutineHeader (sub : Subroutine) : String :=
  let callers := if sub.callers.isEmpty then "-" else Text.addresses sub.callers
  sub.name ++ ": ; type=" ++ sub.kind.name ++ " callers=" ++ callers

def subroutineLines (s : Session) (showDead : Bool) (sub : Subroutine) : List String :=
  "" :: subroutineHeader sub :: sub.blocks.flatMap (blockLines s showDead)

/-- The blocks that belong to no subroutine, in address order. -/
def orphans (script : Script) : List BlockId :=
  script.blocks.filter fun b => (script.graph.block b).owner.isNone

def orphanLines (s : Session) (showDead : Bool) : List String :=
  match orphans s.script with
  | [] => []
  | bs => "" :: "; code outside any subroutine" :: bs.flatMap (blockLines s showDead)

def unreachableLines (script : Script) : List String :=
  match script.unreachable with
  | [] => []
  | bs => ["", "; unreachable blocks: " ++ Text.addresses (bs.map script.graph.addressOf)]

def codeLines (s : Session) (showDead : Bool) : List String :=
  s.script.subroutines.flatMap (subroutineLines s showDead) ++ orphanLines s showDead ++
    unreachableLines s.script

def lines (s : Session) (showDead : Bool) : List Text :=
  (summary s.script).map Text.ofString ++ (s.analysis.map analysisLine).toList ++
    (codeLines s showDead).map Text.ofString

/-- The text of the listing: every line ends in a line break. -/
def render (s : Session) (showDead : Bool) : Text :=
  (lines s showDead).flatMap fun line => line ++ "\n"

end ScriptFlow.Listing
