import YieldPlan.Log
import YieldPlan.PhaseTracker

/-! The command line. Arguments are read from left to right; an option takes the next argument
whatever it is, and may be given once unless it repeats. After `--` every argument is positional. A
request for help is granted at the end, unless an option follows it. -/

namespace YieldPlan

inductive Format where
  | text
  | json
  | program
  deriving DecidableEq, Repr, Inhabited

def Format.ofName (s : String) : Except String Format :=
  if s = "text" then .ok .text
  else if s = "json" then .ok .json
  else if s = "program" then .ok .program
  else .error s!"unknown format `{s}`, expected one of: text, json, program"

structure Settings where
  file : Option String := none
  mode : Mode := .static
  output : OutputStream := .stdout
  format : Format := .text
  /-- The procedure to start from instead of the one that the input names. -/
  entrypoint : Option String := none
  extraOptions : List String := []
  verbosity : Verbosity := .warn
  listPasses : Bool := false
  deriving DecidableEq, Repr, Inhabited

inductive EarlyExit where
  | help
  | usage
  deriving DecidableEq, Repr

def EarlyExit.status : EarlyExit → Nat
  | .help => 0
  | .usage => 1

namespace CommandLine

inductive Flag where
  | mode | output | format | entrypoint | extraOption | verbosity | listPasses
  deriving DecidableEq, Repr

def flagNames : List (String × Flag) :=
  [("-m", .mode), ("--mode", .mode), ("-o", .output), ("--output", .output), ("-f", .format),
    ("--format", .format), ("-e", .entrypoint), ("--entrypoint", .entrypoint),
    ("-x", .extraOption), ("--extra-opt", .extraOption), ("--log", .verbosity),
    ("--list-passes", .listPasses)]

structure Reading where
  settings : Settings := {}
  /-- Options given that may be given once only. -/
  given : List Flag := []
  help : Bool := false
  ended : Bool := false
  deriving DecidableEq, Repr

def setValue (s : Settings) (value : String) : Flag → Option Settings
  | .mode =>
    match Mode.ofName value with
    | .ok mode => some { s with mode }
    | .error _ => none
  | .output => some { s with output := .ofName value }
  | .format =>
    match Format.ofName value with
    | .ok format => some { s with format }
    | .error _ => none
  | .entrypoint => some { s with entrypoint := some value }
  | .extraOption => some { s with extraOptions := s.extraOptions ++ [value] }
  | .verbosity => (Verbosity.ofName? value).map fun verbosity => { s with verbosity }
  | .listPasses => some { s with listPasses := true }

def addValue (r : Reading) (flag : Flag) (value : String) : Option Reading :=
  if flag ∈ r.given then none
  else (setValue r.settings value flag).map fun settings =>
    { r with settings, given := if flag = .extraOption then r.given else flag :: r.given }

def addFile (r : Reading) (path : String) : Option Reading :=
  match r.settings.file with
  | some _ => none
  | none => some { r with settings := { r.settings with file := some path } }

def isDashed (arg : String) : Bool := arg.toList.head? = some '-'

def read (r : Reading) : List String → Option Reading
  | [] => some r
  | arg :: rest =>
    if !r.ended && (arg = "-h" || arg = "--help") then read { r with help := true } rest
    else if !r.ended && isDashed arg then
      if arg = "--" then read { r with ended := true } rest
      else if r.help then none
      else
        match flagNames.lookup arg, rest with
        | none, _ => none
        | some .listPasses, rest =>
          read { r with settings := { r.settings with listPasses := true } } rest
        | some _, [] => none
        | some flag, value :: rest =>
          match addValue r flag value with
          | some r => read r rest
          | none => none
    else
      match addFile r arg with
      | some r => read r rest
      | none => none

def parse (args : List String) : Except EarlyExit Settings :=
  match read {} args with
  | none => .error .usage
  | some r => if r.help then .error .help else .ok r.settings

end CommandLine

end YieldPlan
