import ScriptFlow.Text.Basic
import ScriptFlow.Text.Hex

/-! What is reported along the way, beside the results. -/

namespace ScriptFlow

inductive Level where
  | debug | info | warning | error
  deriving DecidableEq, Repr

namespace Level

def name : Level → String
  | .debug => "DEBUG" | .info => "INFO" | .warning => "WARNING" | .error => "ERROR"

def rank : Level → Nat
  | .debug => 10 | .info => 20 | .warning => 30 | .error => 40

def all : List Level := [.debug, .info, .warning, .error]

def ofName? (s : String) : Option Level := all.find? fun l => l.name == s

end Level

/-- The part of the program that reports. -/
inductive Channel where
  | loader | blocks | subroutines | stack
  deriving DecidableEq, Repr

def Channel.name : Channel → String
  | .loader => "ncsdisasm.ncsfile" | .blocks => "ncsdisasm.block"
  | .subroutines => "ncsdisasm.subroutine" | .stack => "ncsdisasm.stack"

inductive Event where
  /-- The stream goes on behind the script. -/
  | excessBytes (size length : Nat)
  /-- Control flow leaves the script behind the instruction at an address. -/
  | runsOff (site : Int)
  | constructed (blocks instructions : Nat)
  /-- A rule marked edges of the block described. -/
  | deadEdges (rule description : String)
  /-- Several subroutines look like the global initialiser; the one at the address was taken. -/
  | ambiguousGlobal (site : Int)
  | stackFailed (cause : Text)
  | stackAnalyzed (created globals : Nat)
  deriving DecidableEq, Repr

namespace Event

def level : Event → Level
  | .excessBytes _ _ | .runsOff _ | .ambiguousGlobal _ | .stackFailed _ => .warning
  | .constructed _ _ | .deadEdges _ _ | .stackAnalyzed _ _ => .debug

def channel : Event → Channel
  | .excessBytes _ _ => .loader
  | .runsOff _ | .constructed _ _ | .deadEdges _ _ => .blocks
  | .ambiguousGlobal _ => .subroutines
  | .stackFailed _ | .stackAnalyzed _ _ => .stack

def message : Event → Text
  | .excessBytes size length =>
    "script size " ++ toString size ++ " is smaller than stream size " ++ toString length
  | .runsOff site => "control flow runs off the end of the script after " ++ Text.address site
  | .constructed blocks instructions =>
    "constructed " ++ toString blocks ++ " blocks for " ++ toString instructions ++ " instructions"
  | .deadEdges rule description => rule ++ ": " ++ description
  | .ambiguousGlobal site =>
    "more than one candidate for the global initialiser, using " ++ Text.address site
  | .stackFailed cause => "stack analysis failed: " ++ cause
  | .stackAnalyzed created globals =>
    "stack analysis created " ++ toString created ++ " variables, " ++ toString globals ++
      " globals"

def line (e : Event) : Text := e.level.name ++ " " ++ e.channel.name ++ ": " ++ e.message

end Event

end ScriptFlow
