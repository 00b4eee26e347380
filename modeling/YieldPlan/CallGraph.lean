import YieldPlan.Graph.Search
import YieldPlan.Program.Basic
import YieldPlan.Sorting

/-! Who calls or spawns whom. Every call to a procedure and every thread creation is an edge; the
order of procedures puts every target before its callers and exists only without recursion. -/

namespace YieldPlan

structure CallEdge where
  caller : ProcId
  target : ProcId
  site : OpId
  deriving DecidableEq, Repr, Inhabited

structure CallGraph where
  size : Nat
  edges : List CallEdge
  deriving DecidableEq, Repr, Inhabited

def Program.callEdge? (prog : Program) (o : OpId) : Option CallEdge :=
  (prog.kind o).callEdge?.map fun target => { caller := prog.procOf o, target, site := o }

/-- Fails if some target is missing. -/
def Program.callGraph (prog : Program) : Checked CallGraph :=
  let edges := prog.opIds.filterMap prog.callEdge?
  if edges.all fun e => e.caller < prog.procs.size && e.target < prog.procs.size then
    .ok { size := prog.procs.size, edges }
  else .error (.defect .outOfRange)

namespace CallGraph

variable (g : CallGraph)

/-- Targets of a procedure, the last edge first. -/
def targets (p : ProcId) : List ProcId :=
  ((g.edges.filter fun e => e.caller = p).map (·.target)).reverse

def isRecursive (members : List ProcId) : Bool :=
  match members with
  | [p] => (g.targets p).contains p
  | _ => true

/-- The order in which every target comes before its callers. -/
def order (name : ProcId → String) : List (List ProcId) → Checked (List ProcId)
  | [] => .ok []
  | members :: rest =>
    if g.isRecursive members then
      Checked.fail (.recursion (sortTexts (members.map name)))
    else do
      return members ++ (← order name rest)

def postOrder (prog : Program) : Checked (List ProcId) :=
  g.order prog.procName (Graph.components (List.range g.size) g.targets)

def sites (p : ProcId) : List OpId := (g.edges.filter fun e => e.target = p).map (·.site)

def callees (p : ProcId) : List ProcId := (List.range g.size).filter (g.targets p).contains

/-- The procedures that run when `root` runs, in increasing order. -/
def reachableFrom (root : ProcId) : List ProcId :=
  (List.range g.size).filter (Graph.reachableFrom g.size g.targets root).contains

end CallGraph

end YieldPlan
