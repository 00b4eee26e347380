import YieldPlan.Conflicts
import YieldPlan.Mover

/-! How the operations and procedures of a program move. Acquires move right, releases and thread
creations move left, memory operations with conflicts do not move, and all else moves both ways. In
a sequential program everything moves both ways. -/

namespace YieldPlan

structure Movability where
  sequential : Bool
  conflicts : Conflicts
  summaries : Table ProcId Mover := {}
  deriving DecidableEq, Repr, Inhabited

namespace Movability

variable (prog : Program)

def classify (c : Conflicts) (o : OpId) : Mover :=
  match prog.kind o with
  | .memory .. => if c.hasConflicts o then .none else .both
  | .library (.mutexLock _) | .library (.readLock _) | .library (.writeLock _)
  | .library .threadJoin => .right
  | .library (.mutexUnlock _) | .library (.rwUnlock _) | .library (.threadCreate _) => .left
  | _ => .both

def movable (m : Movability) (o : OpId) : Mover :=
  if m.sequential then .both else classify prog m.conflicts o

def summary (m : Movability) (p : ProcId) : Mover := (m.summaries.get? p).getD .both

/-- An operation together with all that it calls. -/
def effect (m : Movability) (o : OpId) : Mover :=
  match (prog.kind o).callee? with
  | some callee => (m.movable prog o).join (m.summary callee)
  | none => m.movable prog o

def addProc (m : Movability) (p : ProcId) : Movability :=
  { m with summaries := m.summaries.put p (Mover.joinAll ((prog.procOps p).map (m.effect prog))) }

def unknownName? (o : OpId) : Option String :=
  match prog.kind o with
  | .library (.unknown name) => some name
  | _ => none

def firstOccurrences (seen : List String) : List String → List String
  | [] => []
  | x :: xs => if x ∈ seen then firstOccurrences seen xs else x :: firstOccurrences (x :: seen) xs

/-- The unknown library functions, in the order that procedures are taken. -/
def unknownNames (order : List ProcId) : List String :=
  firstOccurrences [] ((order.flatMap prog.procOps).filterMap (unknownName? prog))

end Movability

def Program.movability (prog : Program) (order : List ProcId) (ts : Threads) (c : Conflicts) :
    Traced Movability := do
  let unknown := if ts.isSequential then [] else Movability.unknownNames prog order
  Traced.emit (unknown.map fun name =>
    .log .info s!"treating unknown library call `{name}` as a both-mover")
  let m : Movability := { sequential := ts.isSequential, conflicts := c }
  return order.foldl (Movability.addProc prog) m

end YieldPlan
