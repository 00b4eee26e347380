import YieldPlan.PhaseTracker

/-! The plan: what to insert next to which operation so that the requests of all threads are met. -/

namespace YieldPlan

inductive Phase where
  | pre | post
  deriving DecidableEq, Repr, Inhabited

def Phase.name : Phase → String
  | .pre => "pre"
  | .post => "post"

/-- A block of another thread that is tested for being active. -/
structure ConflictCheck where
  thread : String
  block : Nat
  deriving DecidableEq, Repr, Inhabited

inductive PlanAction where
  | yield
  | initPhase
  | setPhase (phase : Phase)
  /-- If the phase is `post`, reset it and yield; then set it to `post`. -/
  | phaseGuardedYield
  /-- The same, but only while one of the checked blocks is active. -/
  | conflictGuardedYield (checks : List ConflictCheck)
  deriving DecidableEq, Repr, Inhabited

/-- An action next to an operation, for the request with the given number. -/
structure PlanStep where
  op : OpId
  placement : Placement
  block : Nat
  action : PlanAction
  deriving DecidableEq, Repr, Inhabited

structure ThreadPlan where
  thread : ThreadId
  proc : String
  multiInstance : Bool
  phaseVar : Option String
  steps : List PlanStep
  deriving DecidableEq, Repr, Inhabited

structure Plan where
  mode : Mode
  threads : List ThreadPlan
  deriving DecidableEq, Repr, Inhabited

namespace Plan

variable (cx : Analysis) (pt : PhaseTracker)

/-- Can control get from an operation to the end of its procedure? -/
def leavesProc (o : OpId) : Bool :=
  (cx.prog.procOps (cx.prog.procOf o)).any fun r =>
    cx.prog.kind r = .terminator .ret && (r = o || cx.reach.reach cx.prog o r)

/-- Where a block of a thread goes on after the return from the procedure of an operation. -/
def continuations (t : ThreadId) (o : OpId) : List OpId :=
  if leavesProc cx o then
    ((cx.ownership.sites (cx.prog.procOf o)).filterMap fun p => p.op? cx.prog).filter fun c =>
      cx.conflicts.owner? c = some t
  else []

/-- Can a block of a thread that starts at an operation still be open when `j` runs? Blocks stay
open across returns. -/
def activeAt (t : ThreadId) (start j : OpId) : Bool :=
  (Graph.reachableFrom cx.prog.ops.size (continuations cx t) start).any fun o =>
    o = j || cx.reach.reach cx.prog o j

def openBlocks (j : OpId) : List (ThreadId × Nat) :=
  match cx.conflicts.owner? j with
  | some t =>
    ((pt.requests.ofThread t).filter fun r => activeAt cx t r.op j).map fun r => (t, r.id)
  | none => []

def pairLe (a b : ThreadId × Nat) : Bool := a.1 < b.1 || (a.1 = b.1 && a.2 ≤ b.2)

def checks (sources : List OpId) : List ConflictCheck :=
  (sortUnique pairLe (sources.flatMap (openBlocks cx pt))).map fun e =>
    ⟨(cx.threads.get e.1).name, e.2⟩

/-- What meets a request. The first point of a thread only needs its number. -/
def actions (r : BlockStart) : List (Placement × PlanAction) :=
  match r.kind, pt.mode with
  | .loopBreak, .static => if r.id = 0 then [] else [(.before, .yield)]
  | .loopBreak, .dynamic =>
    if r.id = 0 then [(.before, .initPhase)]
    else [(.before, .yield), (.before, .setPhase .pre)]
  | .static, _ => [(r.placement, .yield)]
  | _, .static => []
  | .phaseShift, .dynamic => [(r.placement, .setPhase .post)]
  | .phaseDynamic, .dynamic => [(r.placement, .phaseGuardedYield)]
  | .dynamicConflict, .dynamic =>
    [(r.placement, .conflictGuardedYield (checks cx pt r.sources))]

def requestSteps (r : BlockStart) : List PlanStep :=
  (actions cx pt r).map fun a => { op := r.op, placement := a.1, block := r.id, action := a.2 }

/-- In dynamic mode the phase variable is set before anything else happens, also if the first
request was strengthened. -/
def initSteps (requests : List BlockStart) (steps : List PlanStep) : List PlanStep :=
  match pt.mode, requests with
  | .dynamic, first :: _ =>
    if steps.any fun s => s.action = .initPhase then []
    else [{ op := first.op, placement := .before, block := first.id, action := .initPhase }]
  | _, _ => []

def ofThread (t : ThreadId) : ThreadPlan :=
  let thread := cx.threads.get t
  let requests := pt.requests.ofThread t
  let steps := requests.flatMap (requestSteps cx pt)
  { thread := t
    proc := thread.name
    multiInstance := thread.multiInstance
    phaseVar := if pt.mode = .dynamic then some thread.phaseVar else none
    steps := initSteps pt requests steps ++ steps }

def build : Plan := { mode := pt.mode, threads := cx.threads.ids.map (ofThread cx pt) }

/-- The steps at an operation, in the order of the plan. -/
def stepsAt (plan : Plan) (o : OpId) : List PlanStep :=
  (plan.threads.flatMap (·.steps)).filter fun s => s.op = o

end Plan

structure Reduction where
  analysis : Analysis
  tracker : PhaseTracker
  plan : Plan
  deriving DecidableEq, Repr, Inhabited

def Program.reduceWith (prog : Program) (mayAlias : AliasOracle) (mode : Mode) :
    Traced Reduction := do
  let analysis ← prog.analyze mayAlias
  let tracker ← PhaseTracker.create analysis mode
  let (tracker, _) ← tracker.run analysis
  return { analysis, tracker, plan := Plan.build analysis tracker }

def Program.reduce (prog : Program) (mode : Mode) : Traced Reduction :=
  prog.reduceWith locationAliasing mode

end YieldPlan
