import YieldPlan.Locks
import YieldPlan.Ownership

/-! Which operations of threads that run at the same time a memory operation may race with. The
other operation lies in an alias set that the first may alias, the two are not both atomic updates,
and no common lock keeps them apart. -/

namespace YieldPlan

structure Conflicts where
  /-- Operations with at least one conflict; the conflicts are in increasing order. -/
  table : Table OpId (List OpId) := {}
  owners : Table OpId ThreadId := {}
  deriving DecidableEq, Repr, Inhabited

namespace Conflicts

def conflictsWith (c : Conflicts) (o : OpId) : List OpId := (c.table.get? o).getD []

def hasConflicts (c : Conflicts) (o : OpId) : Bool := c.table.contains o

def owner? (c : Conflicts) (o : OpId) : Option ThreadId := c.owners.get? o

variable (prog : Program) (ts : Threads) (own : Ownership) (locks : LockSets)
  (mayAlias : AliasOracle)

/-- May two aliasing operations of concurrent threads race? -/
def races (a b : OpId) : Bool :=
  !((prog.kind a).isAtomicUpdate && (prog.kind b).isAtomicUpdate) && !locks.isProtected a b

/-- The operations of a thread that may race with an operation. -/
def inThread (o : OpId) (t : ThreadId) : List OpId :=
  match own.aliasSets.get? t with
  | some sets => ((sets.aliasing prog mayAlias o).flatten).filter (races prog locks o)
  | none => []

def besides (t : ThreadId) : List ThreadId :=
  ts.ids.filter fun u => u ≠ t || (ts.get u).multiInstance

def find (o : OpId) (t : ThreadId) : List OpId :=
  sortNats ((besides ts t).flatMap (inThread prog own locks mayAlias o))

/-- The conflicts of an operation that has some. -/
def entry? (o : OpId) : Option (OpId × List OpId) :=
  match own.owner? o with
  | some t =>
    if (prog.kind o).isMemory then
      match find prog ts own locks mayAlias o t with
      | [] => none
      | found => some (o, found)
    else none
  | none => none

def line (e : OpId × List OpId) : String :=
  s!"{prog.describe e.1} conflicts with {e.2.length} operations"

end Conflicts

def Program.conflicts (prog : Program) (ts : Threads) (own : Ownership) (locks : LockSets)
    (mayAlias : AliasOracle) : Traced Conflicts := do
  let entries := prog.opIds.filterMap (Conflicts.entry? prog ts own locks mayAlias)
  Traced.emit ((sortTexts (entries.map (Conflicts.line prog))).map (.log .debug))
  return ⟨⟨entries⟩, own.owners⟩

end YieldPlan
