import YieldPlan.Program.Basic
import YieldPlan.Text

/-! What makes a program or its description malformed, and the check of a program's shape: every
procedure has a block, every block ends in its only terminator, it has successors exactly if that is
a branch, and they stay in its procedure. -/

namespace YieldPlan

inductive Malformation where
  | duplicateProcedure (proc : String)
  | noBlocks (proc : String)
  | duplicateBlock (proc block : String)
  | unknownSuccessor (proc block succ : String)
  | spawnTarget (callee : String) (arg : Option String)
  | emptyBlock (proc block : String)
  | innerTerminator (proc block : String) (position : Nat)
  | branchWithoutSuccessors (proc block : String)
  | returnWithSuccessors (proc block : String)
  | noTerminator (proc block : String)
  | foreignSuccessor (proc block succ : String)
  deriving DecidableEq, Repr

def Malformation.message : Malformation → String
  | .duplicateProcedure p => s!"procedure `{p}` is defined more than once"
  | .noBlocks p => s!"procedure `{p}` has no blocks"
  | .duplicateBlock p b => s!"block `{p}.{b}` is defined more than once"
  | .unknownSuccessor p b s => s!"block `{p}.{b}` branches to unknown block `{s}`"
  | .spawnTarget callee arg =>
    s!"`{callee}` must name a procedure of the program, found {Text.quotedOption arg}"
  | .emptyBlock p b => s!"block `{p}.{b}` is empty"
  | .innerTerminator p b position =>
    s!"terminator in the middle of block `{p}.{b}` at position {position}"
  | .branchWithoutSuccessors p b => s!"block `{p}.{b}` branches without successors"
  | .returnWithSuccessors p b => s!"returning block `{p}.{b}` has successors"
  | .noTerminator p b => s!"block `{p}.{b}` does not end in a terminator"
  | .foreignSuccessor p b s => s!"block `{p}.{b}` branches to `{s}` in another procedure"

def Malformation.fail {α : Type} (m : Malformation) : Checked α :=
  Checked.fail (.malformedProgram m.message)

namespace Program

variable (prog : Program)

/-- The first terminator among the operations that are not last. -/
def innerTerminator? : List OpId → Checked (Option Operation)
  | [] => .ok none
  | o :: rest => do
    let op ← Checked.index (prog.op? o)
    if op.kind.isTerminator then return some op
    innerTerminator? rest

/-- The last operation fits the successors of its block. -/
def checkLast (procName : String) (b : Block) (last : Operation) : Checked Unit :=
  match last.kind with
  | .terminator .branch =>
    if b.succs.isEmpty then (Malformation.branchWithoutSuccessors procName b.name).fail
    else .ok ()
  | .terminator .ret =>
    if b.succs.isEmpty then .ok () else (Malformation.returnWithSuccessors procName b.name).fail
  | _ => (Malformation.noTerminator procName b.name).fail

def checkSuccessors (p : ProcId) (procName : String) (b : Block) : List BlockId → Checked Unit
  | [] => .ok ()
  | s :: rest => do
    let succ ← Checked.index (prog.block? s)
    if succ.proc ≠ p then (Malformation.foreignSuccessor procName b.name succ.name).fail
    else checkSuccessors p procName b rest

def checkBlock (p : ProcId) (procName : String) (b : Block) : Checked Unit :=
  match b.ops.getLast? with
  | none => (Malformation.emptyBlock procName b.name).fail
  | some last => do
    match ← prog.innerTerminator? b.ops.dropLast with
    | some op => (Malformation.innerTerminator procName b.name op.position).fail
    | none => do
      checkLast procName b (← Checked.index (prog.op? last))
      prog.checkSuccessors p procName b b.succs

def checkProc (p : ProcId) : Checked Unit :=
  let proc := prog.proc p
  if proc.blocks.isEmpty then (Malformation.noBlocks proc.name).fail
  else proc.blocks.forM fun b => do
    prog.checkBlock p proc.name (← Checked.index (prog.block? b))

def validate : Checked Unit := prog.procIds.forM prog.checkProc

end Program

end YieldPlan
