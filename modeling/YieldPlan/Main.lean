import YieldPlan.Tool

/-! The tool on disk. -/

namespace YieldPlan

def usage : String :=
  "Usage: yieldplan [<file>] [-m <mode>] [-o <output>] [-f <format>] [-e <entrypoint>] " ++
    "[-x <extra-opt...>] [--log <log>] [--list-passes]\n"

/-- The reason of a failed read or write. A directory in place of a file and a file in place of a
directory are told apart by their code. -/
def FileFault.ofError : IO.Error → FileFault
  | .noFileOrDirectory .. => .missing
  | .inappropriateType _ code _ => if code = 21 then .isDirectory else .notDirectory
  | .permissionDenied .. => .denied
  | .resourceExhausted .. => .noSpace
  | .invalidArgument (some _) .. => .nameTooLong
  | e => .other (toString e)

def attempt {α : Type} (step : IO α) : IO (Except FileFault α) := do
  try
    return .ok (← step)
  catch e => return .error (.ofError e)

def readInput (path : String) : IO (Except FileFault String) := attempt (IO.FS.readFile path)

def writeFile (kind : OutputKind) (path text : String) : IO (Option Error) := do
  match ← attempt (IO.FS.Handle.mk path .write) with
  | .error e => return some (.io e.text)
  | .ok file =>
    match ← attempt (do file.putStr text; file.flush) with
    | .error e => return some (kind.refusal text e)
    | .ok () => return none

/-- Let an event happen. The answer is the reason why a text could not be written. -/
def happen (v : Verbosity) : Event → IO (Option Error)
  | .log level text => do
    match v.line? (.log level text) with
    | some line => IO.eprint (Log.shownText line)
    | none => pure ()
    return none
  | .output _ .null _ => return none
  | .output _ .stdout text => do
    IO.print text
    return none
  | .output _ .stderr text => do
    IO.eprint text
    return none
  | .output kind (.file path) text => writeFile kind path text

def report : Failure → IO UInt32
  | .error e => do
    IO.eprintln s!"Error: {e.message}"
    return 1
  | .defect d => do
    IO.eprintln (d.message?.getD "index out of range")
    return 101

def happenAll (v : Verbosity) (result : Checked Unit) : List Event → IO UInt32
  | [] =>
    match result with
    | .ok () => return 0
    | .error f => report f
  | e :: rest => do
    match ← happen v e with
    | some reason => report (.error reason)
    | none => happenAll v result rest

def runOnDisk (s : Settings) : IO UInt32 := do
  let input ← match s.file with
    | some path => if s.listPasses then pure (.error .missing) else readInput path
    | none => pure (.error .missing)
  let run := Tool.run (fun _ => input) s
  happenAll s.verbosity run.result run.events

end YieldPlan

open YieldPlan in
def main (args : List String) : IO UInt32 := do
  match CommandLine.parse args with
  | .ok s => runOnDisk s
  | .error .help => do
    IO.print usage
    return 0
  | .error .usage => do
    IO.eprint usage
    return 1
