import ScriptFlow.CommandLine.Path
import ScriptFlow.Event
import ScriptFlow.Text.Numeral

/-! Command line arguments. Long options may be shortened as long as they stay unique, and take their
value behind `=` or as the next argument; the short flag for help may be repeated in one argument;
behind `--` every argument is a word. A `--` behind `=` stands for no value: it takes back what the
option had, its default included. -/

namespace ScriptFlow.CommandLine

structure Options where
  input : Path
  output : Option Path := none
  actions : Option Path := some (Path.ofText ("knowledge/actions.json" : String))
  analyzeStack : Bool := false
  hideDeadEdges : Bool := false
  logLevel : Option Level := some .warning
  deriving DecidableEq, Repr

inductive Flag where
  | help | output | actions | analyzeStack | hideDeadEdges | logLevel
  deriving DecidableEq, Repr

def Flag.takesValue : Flag → Bool
  | .output | .actions | .logLevel => true
  | .help | .analyzeStack | .hideDeadEdges => false

def flags : List (String × Flag) :=
  [("-h", .help), ("--help", .help), ("--output", .output), ("--actions", .actions),
   ("--analyze-stack", .analyzeStack), ("--hide-dead-edges", .hideDeadEdges),
   ("--log-level", .logLevel)]

/-- What an argument is, on its own. -/
inductive Token where
  | word (text : Text)
  | mark
  | flag (f : Flag) (value : Option Text)
  /-- The short flag for help with more letters behind it. -/
  | cluster (letters : Text)
  /-- Looks like an option and is none. -/
  | unknown
  deriving DecidableEq, Repr

/-- Why there are no options to go by. -/
inductive Refusal where
  | usage
  | help
  deriving DecidableEq, Repr

/-- Divide at the first equals sign. -/
def splitValue (t : Text) : Text × Option Text :=
  let name := t.takeWhile fun p => p != .char '='
  match t.drop name.length with
  | _ :: value => (name, some value)
  | [] => (t, none)

def isDigit (c : Char) : Bool := (Text.decimalValue? c).isSome

/-- The characters without a line break at their end. -/
def chomp (cs : List Char) : List Char :=
  if cs.getLast? = some '\n' then cs.dropLast else cs

/-- A negative number, whole or with a fraction. A line break may follow it. -/
def isNegativeNumber (cs : List Char) : Bool :=
  match chomp cs with
  | '-' :: cs =>
    let (whole, rest) := cs.span isDigit
    match rest with
    | [] => !whole.isEmpty
    | '.' :: part => !part.isEmpty && part.all isDigit
    | _ => false
  | _ => false

/-- The flags whose spelling starts with a text. -/
def matching (start : Text) : List Flag :=
  (flags.filter fun f => start.isPrefixOf (Text.ofString f.1)).map Prod.snd

def exactly? (t : Text) : Option Flag :=
  (flags.find? fun f => Text.ofString f.1 == t).map Prod.snd

/-- An argument that starts with a dash and is no option by itself. -/
def stray (t : Text) : Token :=
  if isNegativeNumber t.shown.toList || t.contains (.char ' ') then .word t else .unknown

/-- The token of a flag in full. What stands behind an equals sign is a value of a long flag, and a
cluster of letters behind the short one. -/
def flagToken (name : Text) (f : Flag) : Option Text → Token
  | none => .flag f none
  | some value => if name = ("-h" : Text) then .cluster value else .flag f (some value)

/-- What an argument in front of `--` is. -/
def classify (t : Text) : Except Refusal Token :=
  let (name, value) := splitValue t
  match exactly? t, exactly? name with
  | some f, _ => .ok (.flag f none)
  | none, some f => .ok (flagToken name f value)
  | none, none =>
    match t with
    | .char '-' :: .char '-' :: _ =>
      match matching name with
      | [] => .ok (stray t)
      | [f] => .ok (.flag f value)
      | _ => .error .usage
    | .char '-' :: .char 'h' :: letters => .ok (.cluster letters)
    | .char '-' :: _ :: _ => .ok (stray t)
    | _ => .ok (.word t)

def tokens : List Text → Except Refusal (List Token)
  | [] => .ok []
  | t :: rest =>
    if t = ("--" : Text) then .ok (.mark :: rest.map Token.word)
    else do
      let token ← classify t
      let ts ← tokens rest
      return token :: ts

structure Draft where
  input : Option Text := none
  options : Options := { input := ⟨"", []⟩ }
  /-- Something is left over that no option takes. -/
  excess : Bool := false

/-- The value that a text behind an equals sign stands for. -/
def given (t : Text) : Option Text := if t = ("--" : Text) then none else some t

/-- Take up the value of a flag, or take it back. A level has to be one of the known ones. -/
def Draft.set (d : Draft) (f : Flag) (value : Option Text) : Except Refusal Draft :=
  match f, value with
  | .output, _ => .ok { d with options := { d.options with output := value.map Path.ofText } }
  | .actions, _ => .ok { d with options := { d.options with actions := value.map Path.ofText } }
  | .logLevel, none => .ok { d with options := { d.options with logLevel := none } }
  | .logLevel, some name =>
    match name.toString?.bind Level.ofName? with
    | some level => .ok { d with options := { d.options with logLevel := some level } }
    | none => .error .usage
  | .help, _ | .analyzeStack, _ | .hideDeadEdges, _ => .error .usage

def Draft.raise (d : Draft) (f : Flag) : Except Refusal Draft :=
  match f with
  | .help => .error .help
  | .analyzeStack => .ok { d with options := { d.options with analyzeStack := true } }
  | .hideDeadEdges => .ok { d with options := { d.options with hideDeadEdges := true } }
  | .output | .actions | .logLevel => .error .usage

/-- Take up the arguments one after the other. The first word is the input; a `--` beside it belongs to
it. -/
def collect : Draft → List Token → Except Refusal Draft
  | d, [] => .ok d
  | d, .word s :: rest =>
    match d.input with
    | some _ => collect { d with excess := true } rest
    | none =>
      match rest with
      | .mark :: rest => collect { d with input := some s } rest
      | rest => collect { d with input := some s } rest
  | d, .mark :: rest =>
    match d.input, rest with
    | none, _ :: _ => collect d rest
    | _, _ => collect { d with excess := true } rest
  | d, .flag f (some value) :: rest =>
    if f.takesValue then do
      let d ← d.set f (given value)
      collect d rest
    else .error .usage
  | d, .flag f none :: rest =>
    if f.takesValue then
      match rest with
      | .word value :: rest => do
        let d ← d.set f (some value)
        collect d rest
      | _ => .error .usage
    else do
      let d ← d.raise f
      collect d rest
  | _, .cluster letters :: _ =>
    if !letters.isEmpty && letters.all fun p => p == .char 'h' then .error .help else .error .usage
  | d, .unknown :: rest => collect { d with excess := true } rest

def parse (args : List Text) : Except Refusal Options := do
  let ts ← tokens args
  let d ← collect {} ts
  match d.input, d.excess with
  | some s, false => return { d.options with input := Path.ofText s }
  | _, _ => .error .usage

end ScriptFlow.CommandLine
