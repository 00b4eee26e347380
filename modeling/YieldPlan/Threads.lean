import YieldPlan.Reachability

/-! The threads of a program: the entrypoint and every procedure started by a thread creation that
can run. A thread has several instances when one of its creations reaches another or itself, or lies
in a procedure that can run more than once. -/

namespace YieldPlan

abbrev ThreadId := Nat

structure Thread where
  proc : ProcId
  name : String
  /-- More than one instance may run at the same time. -/
  multiInstance : Bool
  /-- The thread creations that start it. -/
  spawns : List OpId
  deriving DecidableEq, Repr, Inhabited

def Thread.phaseVar (t : Thread) : String := s!"__lipton_phase_{t.name}"

structure Threads where
  list : List Thread
  deriving DecidableEq, Repr, Inhabited

namespace Threads

def size (ts : Threads) : Nat := ts.list.length

def get (ts : Threads) (t : ThreadId) : Thread := ts.list.getD t default

def ids (ts : Threads) : List ThreadId := List.range ts.size

def isSequential (ts : Threads) : Bool :=
  ts.list.length == 1 && ts.list.all fun t => !t.multiInstance

def addSpawn (sites : List (ProcId × List OpId)) (target : ProcId) (o : OpId) :
    List (ProcId × List OpId) :=
  if sites.any fun s => s.1 = target then
    sites.map fun s => if s.1 = target then (s.1, s.2 ++ [o]) else s
  else sites ++ [(target, [o])]

def spawnSites (prog : Program) (live : List ProcId) (main : ProcId) : List (ProcId × List OpId) :=
  prog.opIds.foldl (fun sites o =>
    match (prog.kind o).spawn? with
    | some target => if live.contains (prog.procOf o) then addSpawn sites target o else sites
    | none => sites) [(main, [])]

/-- Procedures found to run more than once, and those found to start several instances. -/
structure Repetition where
  repeated : List ProcId := []
  multi : List ProcId := []
  deriving DecidableEq, Repr

/-- What the live sites of a procedure say about it, once all its callers are known. -/
def Repetition.add (prog : Program) (r : Reachability) (sites : List OpId) (rep : Repetition)
    (p : ProcId) : Repetition :=
  let spawns := sites.filter fun o => (prog.kind o).spawn?.isSome
  let calls := sites.filter fun o => !(prog.kind o).spawn?.isSome
  let inRepeated (o : OpId) : Bool := rep.repeated.contains (prog.procOf o)
  let isMulti := (spawns.any fun s => spawns.any fun t => r.reach prog s t) || spawns.any inRepeated
  let isRepeated := isMulti || calls.length > 1 || (calls.any fun c => r.reach prog c c) ||
    calls.any inRepeated
  { repeated := if isRepeated then p :: rep.repeated else rep.repeated
    multi := if isMulti then p :: rep.multi else rep.multi }

/-- Callers come before callees. The entrypoint runs once. -/
def repetition (prog : Program) (g : CallGraph) (order : List ProcId) (r : Reachability)
    (live : List ProcId) (main : ProcId) : Repetition :=
  order.reverse.foldl (fun rep p =>
    if p = main then rep
    else rep.add prog r ((g.sites p).filter fun o => live.contains (prog.procOf o)) p) {}

def describe (i : ThreadId) (t : Thread) : Event :=
  let many := if t.multiInstance then ", multi-instance" else ""
  .log .debug s!"thread {i}: {t.name} ({t.spawns.length} spawn sites{many})"

end Threads

def Program.threads (prog : Program) (g : CallGraph) (order : List ProcId) (r : Reachability) :
    Traced Threads := do
  let main ← prog.main
  let live := g.reachableFrom main
  Traced.ofChecked (if order.all (· < g.size) then .ok () else .error (.defect .outOfRange))
  let multi := (Threads.repetition prog g order r live main).multi
  let list := (Threads.spawnSites prog live main).map fun s =>
    { proc := s.1, name := prog.procName s.1, multiInstance := multi.contains s.1, spawns := s.2 }
  Traced.emit (list.zipIdx.map fun e => Threads.describe e.2 e.1)
  return ⟨list⟩

end YieldPlan
