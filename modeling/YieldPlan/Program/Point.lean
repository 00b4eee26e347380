import YieldPlan.Program.Basic

/-! Points of control flow: a block entered at some offset. Offsets other than zero are where calls
return to and where atomic regions end. -/

namespace YieldPlan

structure Point where
  block : BlockId
  start : Nat
  deriving DecidableEq, Repr, Inhabited

namespace Point

def entry (b : BlockId) : Point := ⟨b, 0⟩

/-- The operation that runs first at a point. -/
def op? (prog : Program) (p : Point) : Option OpId := prog.opAt? p.block p.start

/-- The operations from a point to the end of its block. A point past the end is none of the
program. -/
def ops? (prog : Program) (p : Point) : Option (List OpId) :=
  (prog.block? p.block).bind fun b => if p.start ≤ b.ops.length then some (b.ops.drop p.start) else none

end Point

namespace Program

variable (prog : Program)

def pointAfter (o : OpId) : Point := ⟨prog.blockOf o, (prog.op o).position + 1⟩

/-- The only successor of a block that does nothing but branch to it. -/
def hop? (b : BlockId) : Option BlockId :=
  match (prog.block b).ops, (prog.block b).succs with
  | [_], [s] => if prog.terminator? b = some .branch then some s else none
  | _, _ => none

/-- Follow blocks that only branch on, until one does more or comes again. -/
def skipHops : Nat → List BlockId → BlockId → BlockId
  | 0, _, b => b
  | fuel + 1, seen, b =>
    if b ∈ seen then b
    else
      match prog.hop? b with
      | some s => skipHops fuel (b :: seen) s
      | none => b

/-- Where a procedure starts when it runs as a thread. -/
def firstPoint (p : ProcId) : Point :=
  .entry (prog.skipHops (prog.blocks.size + 1) [] (prog.entryBlock p))

end Program

end YieldPlan
