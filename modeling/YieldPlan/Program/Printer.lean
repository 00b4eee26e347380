import YieldPlan.Program.Basic

/-! Programs as text, each operation on a line of its own with an optional remark. Printing fails on
a call whose target is missing. -/

namespace YieldPlan

def LibraryCall.kind? : LibraryCall → Option LibraryKind
  | .yield => some .yield
  | .threadCreate _ => some .threadCreate
  | .threadJoin => some .threadJoin
  | .mutexLock _ => some .mutexLock
  | .mutexUnlock _ => some .mutexUnlock
  | .readLock _ => some .readLock
  | .writeLock _ => some .writeLock
  | .rwUnlock _ => some .rwUnlock
  | .mutexInit _ => some .mutexInit
  | .atomicBegin => some .atomicBegin
  | .atomicEnd => some .atomicEnd
  | .assert => some .assert
  | .unknown _ => none

namespace Program

variable (prog : Program)

def nameOf (p : ProcId) : Checked String := return (← Checked.index (prog.proc? p)).name

def argumentText : LibraryCall → Checked String
  | .threadCreate p => prog.nameOf p
  | .mutexLock l | .mutexUnlock l | .readLock l | .writeLock l | .rwUnlock l | .mutexInit l =>
    .ok l.text
  | _ => .ok ""

def libraryCallText (c : LibraryCall) : Checked String :=
  match c with
  | .unknown name => .ok s!"call {name}()"
  | c => do
    let name := (c.kind?.map LibraryKind.canonicalName).getD ""
    let arg ← prog.argumentText c
    return s!"call {name}({arg})"

def successorsText (b : BlockId) : Checked String := do
  let names ← (prog.block b).succs.mapM fun s => do
    return (← Checked.index (prog.block? s)).name
  return "branch " ++ ", ".intercalate names

def opText (o : OpId) : Checked String := do
  let op ← Checked.index (prog.op? o)
  match op.kind with
  | .memory access loc => return s!"{access.name} {loc.text}"
  | .call p => return "call " ++ (← prog.nameOf p) ++ "()"
  | .library c => prog.libraryCallText c
  | .local => return "local"
  | .debug => return "debug"
  | .terminator .ret => return "return"
  | .terminator .branch => prog.successorsText op.block

def opLine (remark : OpId → Option String) (o : OpId) : Checked String := do
  let text ← prog.opText o
  match remark o with
  | some note => return s!"    {text}; // {note}\n"
  | none => return s!"    {text};\n"

def blockText (remark : OpId → Option String) (b : BlockId) : Checked String := do
  let block ← Checked.index (prog.block? b)
  let lines ← block.ops.mapM (prog.opLine remark)
  return s!"  {block.name}:\n" ++ String.join lines

def procText (remark : OpId → Option String) (p : ProcId) : Checked String := do
  let proc := prog.proc p
  let mark := if proc.name = prog.entrypoint then "@main " else ""
  let blocks ← proc.blocks.mapM (prog.blockText remark)
  return s!"{mark}proc {proc.name} \x7b\n" ++ String.join blocks ++ "\x7d\n"

def renderWith (remark : OpId → Option String) : Checked String := do
  let procs ← prog.procIds.mapM (prog.procText remark)
  return "\n".intercalate procs

def render : Checked String := prog.renderWith fun _ => none

end Program

end YieldPlan
