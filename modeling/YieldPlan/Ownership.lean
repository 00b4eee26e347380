import YieldPlan.Aliasing
import YieldPlan.PassOptions
import YieldPlan.Threads
import YieldPlan.Walk

/-! Which thread executes which operation, found by walking every thread once. Along the way the
alias sets of each thread are built, and the points that calls return to are recorded. -/

namespace YieldPlan

structure Ownership where
  owners : Table OpId ThreadId := {}
  aliasSets : Table ThreadId AliasSets := {}
  /-- The points after the calls to each procedure. -/
  returnSites : Table ProcId (List Point) := {}
  deriving DecidableEq, Repr, Inhabited

namespace Ownership

variable (prog : Program) (r : Reachability) (ts : Threads) (mayAlias : AliasOracle)

def owner? (own : Ownership) (o : OpId) : Option ThreadId := own.owners.get? o

def sites (own : Ownership) (p : ProcId) : List Point := (own.returnSites.get? p).getD []

def claim (own : Ownership) (t : ThreadId) (o : OpId) : Ownership :=
  { own with
    owners := own.owners.put o t
    aliasSets := own.aliasSets.put t
      (((own.aliasSets.get? t).getD {}).insert prog mayAlias o) }

/-- An operation that another thread owns stops the walk. -/
def visit (t : ThreadId) (o : OpId) (area : Area) : Action Ownership Step := do
  let own ← get
  match own.owner? o with
  | none => set (own.claim prog mayAlias t o)
  | some first =>
    if first ≠ t then
      throw (.error { cause := .duplicateOwner (prog.describe o) (ts.get first).name (ts.get t).name })
  return .continue area

def addSite (own : Ownership) (callee : ProcId) (cont : Point) : Ownership :=
  let old := own.sites callee
  { own with returnSites := own.returnSites.put callee (if cont ∈ old then old else old ++ [cont]) }

/-- Calls lead into the callee, and on if it can return. -/
def afterCall (callee : ProcId) (cont : Point) : Action Ownership (List Point) := do
  modify fun own => own.addSite callee cont
  let entry := Point.entry (prog.entryBlock callee)
  return if r.mayReturn callee then [entry, cont] else [entry]

def processor (t : ThreadId) : Processor Ownership where
  visit := visit prog ts mayAlias t
  afterCall := fun _ callee cont => afterCall prog r callee cont
  afterReturn := fun _ => return []
  revisit := fun _ _ _ _ => return ()

def addThread (own : Ownership) (t : ThreadId) : Checked Ownership :=
  match prog.walk (processor prog r ts mayAlias t) (prog.firstPoint (ts.get t).proc) .pre
      { state := own } with
  | .ok _ w => .ok w.state
  | .error e _ => .error e

def addThreads (own : Ownership) : List ThreadId → Checked Ownership
  | [] => .ok own
  | t :: rest => do addThreads (← own.addThread prog r ts mayAlias t) rest

def threadDump (own : Ownership) (t : ThreadId) : String :=
  let sets := ((own.aliasSets.get? t).getD {}).sets
  s!"thread {t} ({(ts.get t).name}):\n" ++
    String.join (sets.map fun set =>
      "  \x7b" ++ ", ".intercalate (set.map prog.describe) ++ "\x7d\n")

def aliasDump (own : Ownership) : String := String.join (ts.ids.map (own.threadDump prog ts))

end Ownership

/-- Assign operations to threads, and write the alias sets where an option asks for it. -/
def Program.ownership (prog : Program) (r : Reachability) (ts : Threads) (mayAlias : AliasOracle) :
    Traced Ownership := do
  let own ← Ownership.addThreads prog r ts mayAlias {} ts.ids
  Traced.log .debug s!"collect: {own.owners.size} reachable operations"
  let options ← Pass.collect.configure prog.extraOptions
  let target ← (← options.get "dump-alias-sets").asStream
  match target with
  | some stream => Traced.emit [.output .lines stream (own.aliasDump prog ts)]
  | none => pure ()
  return own

end YieldPlan
