import YieldPlan.Description
import YieldPlan.Program.Builder

/-! From a description to a program. All procedures are declared first, then each procedure gets its
blocks, then each block its operations and the terminator that its successors imply. -/

namespace YieldPlan

def firstRepeat? (seen : List String) : List String → Option String
  | [] => none
  | x :: xs => if x ∈ seen then some x else firstRepeat? (x :: seen) xs

namespace Lowering

def libraryCall (procs : List String) (name : String) (arg : Option String) :
    Checked LibraryCall :=
  let loc := Location.ofName? arg
  match LibraryKind.ofName? name with
  | none => .ok (.unknown name)
  | some .threadCreate =>
    match arg.bind fun a => procs.findIdx? (· == a) with
    | some target => .ok (.threadCreate target)
    | none => (Malformation.spawnTarget name arg).fail
  | some .yield => .ok .yield
  | some .threadJoin => .ok .threadJoin
  | some .mutexLock => .ok (.mutexLock loc)
  | some .mutexUnlock => .ok (.mutexUnlock loc)
  | some .readLock => .ok (.readLock loc)
  | some .writeLock => .ok (.writeLock loc)
  | some .rwUnlock => .ok (.rwUnlock loc)
  | some .mutexInit => .ok (.mutexInit loc)
  | some .atomicBegin => .ok .atomicBegin
  | some .atomicEnd => .ok .atomicEnd
  | some .assert => .ok .assert

/-- A callee that names a procedure is called; any other is a library function. -/
def operation (procs : List String) : OperationDesc → Checked OpKind
  | .access kind loc => .ok (.memory kind (Location.ofName? loc))
  | .local => .ok .local
  | .debug => .ok .debug
  | .call callee arg =>
    match procs.findIdx? (· == callee) with
    | some p => .ok (.call p)
    | none => return .library (← libraryCall procs callee arg)

/-- A successor, looked up among the blocks of its procedure. The first of them has index `base`. -/
def successor (proc block : String) (blocks : List String) (base : BlockId) (name : String) :
    Checked BlockId :=
  match blocks.findIdx? (· == name) with
  | some i => .ok (base + i)
  | none => (Malformation.unknownSuccessor proc block name).fail

def body (procs : List String) (b : BlockId) (prog : Program) :
    List OperationDesc → Checked Program
  | [] => .ok prog
  | o :: rest => do
    let kind ← operation procs o
    body procs b (prog.push b kind) rest

def terminate (proc : String) (blocks : List String) (base : BlockId) (b : BlockId)
    (d : BlockDesc) (prog : Program) : Checked Program :=
  if d.succs.isEmpty then .ok (prog.ret b)
  else do
    let succs ← d.succs.mapM (successor proc d.name blocks base)
    return prog.branch b succs

def fillBlocks (procs : List String) (proc : String) (blocks : List String) (base : BlockId) :
    BlockId → Program → List BlockDesc → Checked Program
  | _, prog, [] => .ok prog
  | b, prog, d :: rest => do
    let prog ← body procs b prog d.ops
    let prog ← terminate proc blocks base b d prog
    fillBlocks procs proc blocks base (b + 1) prog rest

def procedure (procs : List String) (p : ProcId) (prog : Program) (d : ProcedureDesc) :
    Checked Program :=
  if d.blocks.isEmpty then (Malformation.noBlocks d.name).fail
  else
    let names := d.blocks.map (·.name)
    match firstRepeat? [] names with
    | some b => (Malformation.duplicateBlock d.name b).fail
    | none =>
      let base := prog.blocks.size
      fillBlocks procs d.name names base base (names.foldl (fun q n => q.addBlock p n) prog) d.blocks

def procedures (procs : List String) : ProcId → Program → List ProcedureDesc → Checked Program
  | _, prog, [] => .ok prog
  | p, prog, d :: rest => do
    let prog ← procedure procs p prog d
    procedures procs (p + 1) prog rest

end Lowering

/-- The program that a description stands for. -/
def Description.lower (d : Description) : Checked Program :=
  let names := d.procedures.map (·.name)
  match firstRepeat? [] names with
  | some p => (Malformation.duplicateProcedure p).fail
  | none => do
    let declared := names.foldl Program.addProc { entrypoint := d.main : Program }
    let prog ← Lowering.procedures names 0 declared d.procedures
    prog.finish

end YieldPlan
