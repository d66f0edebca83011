import ScriptFlow.CommandLine.Run

/-! The command line program: reads the files, prints and writes. -/

namespace ScriptFlow.CommandLine

def readFile (p : Path) : IO File := do
  try
    let bytes ← IO.FS.readBinFile p.text.shown
    return .bytes bytes.toList
  catch e =>
    match e with
    | .noFileOrDirectory .. => return .missing
    | _ => return .unreadable

def usage : String :=
  "usage: script-flow [-h] [--output OUTPUT] [--actions ACTIONS] [--analyze-stack] " ++
    "[--hide-dead-edges] [--log-level DEBUG|INFO|WARNING|ERROR] input"

/-- Hundredths of a second, with two digits behind the point. -/
def seconds (ms : Nat) : String :=
  let hundredths := (ms + 5) / 10
  let rest := hundredths % 100
  toString (hundredths / 100) ++ "." ++ (if rest < 10 then "0" else "") ++ toString rest

/-- Print a report and write its listing; the answer is the exit code. A listing that characters cannot
show is not written. -/
def deliver (report : Report) (started : Nat) : IO UInt32 := do
  for line in report.log do IO.eprintln line.shown
  match report.failure, report.listing with
  | none, some (path, text) =>
    match text.toString? with
    | none =>
      IO.eprintln "the listing holds half of a surrogate pair"
      return 1
    | some content =>
      IO.FS.writeFile path.text.shown content
      for line in report.printed do IO.println line.shown
      let stopped ← IO.monoMsNow
      IO.println ("total execution time: " ++ seconds (stopped - started) ++ "s")
      return 0
  | failure, _ =>
    IO.eprintln (failure.getD []).shown
    return 1

/-- Do what the arguments ask for; the answer is the exit code. -/
def execute (args : List String) : IO UInt32 := do
  let started ← IO.monoMsNow
  match parse (args.map Text.ofString) with
  | .error .help =>
    IO.println usage
    return 0
  | .error .usage =>
    IO.eprintln usage
    return 2
  | .ok o =>
    let input ← readFile o.input
    let actions ← match o.analyzeStack, o.actions with
      | true, some p => readFile p
      | _, _ => pure .missing
    match run o input actions with
    | .error crash =>
      IO.eprintln crash.message.shown
      return 1
    | .ok report => deliver report started

end ScriptFlow.CommandLine

def main (args : List String) : IO UInt32 := ScriptFlow.CommandLine.execute args
