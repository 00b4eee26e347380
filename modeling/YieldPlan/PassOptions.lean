import YieldPlan.Log
import YieldPlan.Text

/-! Options for single passes, given as `pass:option` or `pass:option=value`. Of a text only what
stands up to the second colon counts, and of the value what stands up to the second equals sign. An
option without a value is switched on, whatever its kind. -/

namespace YieldPlan

inductive OptionValue where
  | flag (b : Bool)
  | stream (s : OutputStream)
  deriving DecidableEq, Repr

namespace OptionValue

def text : OptionValue → String
  | .flag b => if b then "true" else "false"
  | .stream s => s.name

def asFlag : OptionValue → Checked Bool
  | .flag b => .ok b
  | v => .error (.defect (.expectedBool v.text))

def asStream : OptionValue → Checked (Option OutputStream)
  | .stream .null => .ok none
  | .stream s => .ok (some s)
  | v => .error (.defect (.expectedStream v.text))

end OptionValue

inductive OptionKind where
  | flag | stream
  deriving DecidableEq, Repr

/-- Flags are `true` or `false`; every text names a stream. -/
def OptionKind.parse? : OptionKind → String → Option OptionValue
  | .flag, s =>
    if s = "true" then some (.flag true) else if s = "false" then some (.flag false) else none
  | .stream, s => some (.stream (.ofName s))

structure PassOption where
  name : String
  description : String
  kind : OptionKind
  default : OptionValue
  deriving DecidableEq, Repr

structure Pass where
  name : String
  description : String
  options : List PassOption := []
  deriving DecidableEq, Repr

inductive OptionReading where
  | none
  | unknown (name : String)
  | invalid (name value : String)
  | value (name : String) (v : OptionValue)
  deriving DecidableEq, Repr

abbrev OptionValues := List (String × OptionValue)

namespace Pass

variable (pass : Pass)

def read (text : String) : OptionReading :=
  match Text.split ':' text with
  | name :: rest :: _ =>
    if name = pass.name then
      match Text.split '=' rest with
      | [] => .none
      | opt :: values =>
        match pass.options.find? fun o => o.name == opt, values with
        | none, _ => .unknown opt
        | some o, [] => .value o.name (.flag true)
        | some o, v :: _ =>
          match o.kind.parse? v with
          | some v => .value o.name v
          | none => .invalid o.name v
    else .none
  | _ => .none

def complaint? : OptionReading → Option Event
  | .unknown opt => some (.log .warn s!"Ignoring unknown option for pass `{pass.name}`: {opt}")
  | .invalid opt v =>
    some (.log .warn s!"Ignoring invalid value for option `{pass.name}:{opt}`: {v}")
  | _ => none

/-- Set an option; it moves to the end. -/
def assign (values : OptionValues) : OptionReading → OptionValues
  | .value name v => values.filter (fun e => e.1 ≠ name) ++ [(name, v)]
  | _ => values

def givenValues (texts : List String) : OptionValues :=
  (texts.map pass.read).foldl assign []

def missingValues (values : OptionValues) : OptionValues :=
  (pass.options.filter fun o => !values.any fun e => e.1 == o.name).map fun o => (o.name, o.default)

def values (texts : List String) : OptionValues :=
  pass.givenValues texts ++ pass.missingValues (pass.givenValues texts)

/-- The values of all options, with complaints about texts that set none. -/
def configure (texts : List String) : Traced OptionValues := do
  Traced.emit ((texts.map pass.read).filterMap pass.complaint?)
  let given := (pass.givenValues texts).map fun e => s!"{e.1}->{e.2.text}"
  Traced.log .debug (s!"Extra options for {pass.name}: " ++ ", ".intercalate given)
  return pass.values texts

def help : String :=
  s!"- {pass.name}: {pass.description}" ++
    String.join (pass.options.map fun o =>
      s!"\n  * {o.name}: {o.description} (default: {o.default.text})") ++ "\n"

end Pass

def OptionValues.get (values : OptionValues) (name : String) : Checked OptionValue :=
  Checked.index (values.lookup name)

namespace Pass

def collect : Pass where
  name := "collect"
  description := "assign operations to threads and build per-thread alias sets"
  options := [{
    name := "dump-alias-sets"
    description := "write the alias sets of every thread to the given stream"
    kind := .stream
    default := .stream .null }]

def instrument : Pass where
  name := "instrument"
  description := "turn block-start requests into yields and phase updates"

def track : Pass where
  name := "liptonize"
  description := "track commit phases and compute block-start requests"
  options := [{
    name := "no-conflict-check"
    description := "dynamic mode: guard yields on non-movers by the phase only"
    kind := .flag
    default := .flag false }]

def wellFormed : Pass where
  name := "well-formed"
  description := "check that the program is well-formed and has an entrypoint"

def all : List Pass := [collect, instrument, track, wellFormed]

def completeHelp : String := "Passes:\n" ++ String.join (all.map help)

end Pass

end YieldPlan
