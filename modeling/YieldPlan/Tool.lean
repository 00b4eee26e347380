import YieldPlan.CommandLine
import YieldPlan.Description.Encode
import YieldPlan.FileSystem
import YieldPlan.Plan.Printer
import YieldPlan.Program.Lowering
import YieldPlan.Text

/-! A run of the tool: read a description, reduce the program, write the result. Reading is a
parameter and writing is an event, so a run can take place on disk or in a file system of texts. -/

namespace YieldPlan

namespace Tool

def rejection : String := "not a program description"

def loadProgram (path text : String) (s : Settings) : Checked Program :=
  match Description.parse? text with
  | none => Checked.fail (.invalidFile s!"{path}: {rejection}")
  | some d => do
    let d := match s.entrypoint with
      | some main => { d with main }
      | none => d
    let prog ← d.lower
    return { prog with extraOptions := s.extraOptions }

def result (format : Format) (prog : Program) (r : Reduction) : Checked String :=
  match format with
  | .text => .ok (r.plan.text prog)
  | .json => .ok (r.plan.jsonText prog)
  | .program => r.plan.annotated prog r.tracker

def kind : Format → OutputKind
  | .json => .document
  | .text | .program => .lines

def run (read : String → Except FileFault String) (s : Settings) : Traced Unit :=
  if s.listPasses then Traced.emit [.output .lines .stdout Pass.completeHelp]
  else
    match s.file with
    | none => Traced.ofChecked (Checked.fail (.misc "no input file given, see --help"))
    | some path =>
      match read path with
      | .error e =>
        Traced.ofChecked (Checked.fail (.invalidFile s!"failed to read {path}: {e.text}"))
      | .ok text => do
        let prog ← loadProgram path text s
        let reduction ← prog.reduce s.mode
        let text ← result s.format prog reduction
        Traced.emit [.output (kind s.format) s.output text]

end Tool

def OutputKind.bufferSize : Nat := 8192

/-- Why a text was refused. A fault shows when the text overflows the buffer: within a document, or
else in the lines around it. -/
def OutputKind.refusal (kind : OutputKind) (text : String) (fault : FileFault) : Error :=
  if kind = .document && bufferSize + 1 < text.utf8ByteSize then .document fault.text
  else .io fault.text

def Log.shownText (line : String) : String := Text.plain (Text.indented line ++ "\n")

structure Outcome where
  status : Nat := 0
  stdout : String := ""
  stderr : String := ""
  files : FileSystem
  deriving DecidableEq, Repr

namespace Outcome

def failed (o : Outcome) : Failure → Outcome
  | .error e => { o with status := 1, stderr := o.stderr ++ s!"Error: {e.message}\n" }
  | .defect _ => { o with status := 101, stderr := "" }

def say (o : Outcome) (line : String) : Outcome :=
  { o with stderr := o.stderr ++ Log.shownText line }

def write (o : Outcome) (kind : OutputKind) (text : String) : OutputStream → Except Error Outcome
  | .null => .ok o
  | .stdout => .ok { o with stdout := o.stdout ++ text }
  | .stderr => .ok { o with stderr := o.stderr ++ text }
  | .file path =>
    match o.files.create path with
    | .error e => .error (.io e.text)
    | .ok (.text place) => .ok { o with files := o.files.put place text }
    | .ok (.device .null) => .ok o
    | .ok (.device .full) => .error (kind.refusal text .noSpace)
    | .ok (.device .stdout) => .ok { o with stdout := o.stdout ++ text }
    | .ok (.device .stderr) => .ok { o with stderr := o.stderr ++ text }

/-- Let events happen in order, up to the first text that cannot be written. -/
def perform (v : Verbosity) (o : Outcome) : List Event → Outcome × Checked Unit
  | [] => (o, .ok ())
  | .log level text :: rest =>
    match v.line? (.log level text) with
    | some line => perform v (o.say line) rest
    | none => perform v o rest
  | .output kind stream text :: rest =>
    match o.write kind text stream with
    | .ok o => perform v o rest
    | .error e => (o, .error (.error e))

end Outcome

/-- The result of a run whose events happen among files. A text that cannot be written comes before a
failure of the run itself. -/
def Traced.resultIn {α : Type} (run : Traced α) (fs : FileSystem) : Checked α := do
  (Outcome.perform .off { files := fs } run.events).2
  run.result

def Tool.runIn (fs : FileSystem) (s : Settings) : Outcome :=
  let run := Tool.run fs.read s
  let (o, written) := Outcome.perform s.verbosity { files := fs } run.events
  match written >>= fun _ => run.result with
  | .ok () => o
  | .error f => o.failed f

end YieldPlan
