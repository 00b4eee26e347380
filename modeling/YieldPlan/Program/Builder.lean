import YieldPlan.Program.Validate

/-! Assembling a program step by step. The first block added to a procedure is its entry. A step
that names a missing procedure or block fails; the targets of calls and thread creations may be
added later and are not checked here. -/

namespace YieldPlan

def Procedure.addBlock (p : Procedure) (b : BlockId) : Procedure :=
  { p with blocks := p.blocks ++ [b], entry := p.entry.or (some b) }

namespace Program

variable (prog : Program)

def addProc (name : String) : Program := { prog with procs := prog.procs.push { name } }

def addBlock (p : ProcId) (name : String) : Program :=
  { prog with
    blocks := prog.blocks.push { name, proc := p }
    procs := prog.procs.modify p fun q => q.addBlock prog.blocks.size }

def push (b : BlockId) (kind : OpKind) : Program :=
  { prog with
    ops := prog.ops.push { block := b, position := (prog.block b).ops.length, kind }
    blocks := prog.blocks.modify b fun blk => { blk with ops := blk.ops ++ [prog.ops.size] } }

def branch (b : BlockId) (succs : List BlockId) : Program :=
  { prog with blocks := prog.blocks.modify b fun blk => { blk with succs } }.push b
    (.terminator .branch)

def ret (b : BlockId) : Program := prog.push b (.terminator .ret)

end Program

inductive BuildStep where
  | entrypoint (name : String)
  | proc (name : String)
  | block (proc : ProcId) (name : String)
  | op (block : BlockId) (kind : OpKind)
  | branch (block : BlockId) (succs : List BlockId)
  deriving DecidableEq, Repr

namespace BuildStep

/-- The program after a step, and the index that the step handed out. -/
def apply (prog : Program) : BuildStep → Checked (Program × Nat)
  | .entrypoint name => .ok ({ prog with entrypoint := name }, 0)
  | .proc name => .ok (prog.addProc name, prog.procs.size)
  | .block p name =>
    if p < prog.procs.size then .ok (prog.addBlock p name, prog.blocks.size)
    else .error (.defect .outOfRange)
  | .op b kind =>
    if b < prog.blocks.size then .ok (prog.push b kind, prog.ops.size)
    else .error (.defect .outOfRange)
  | .branch b succs =>
    if b < prog.blocks.size then .ok (prog.branch b succs, prog.ops.size)
    else .error (.defect .outOfRange)

def applyAll (prog : Program) : List BuildStep → Checked (Program × List Nat)
  | [] => .ok (prog, [])
  | s :: rest => do
    let (prog, i) ← s.apply prog
    let (prog, is) ← applyAll prog rest
    return (prog, i :: is)

end BuildStep

def Program.finish (prog : Program) : Checked Program := do
  prog.validate
  return prog

end YieldPlan
