import YieldPlan.Graph.Search
import YieldPlan.Movability

/-! Atomic regions: from a begin marker to all end markers that match it. The scan follows every
branch and counts nested regions; calls are stepped over. Nesting deeper than the number of
operations of the procedure can only come from a loop that opens regions without closing them. -/

namespace YieldPlan

structure AtomicRegion where
  start : OpId
  /-- The join over everything strictly inside, callees included. -/
  kind : Mover
  ends : List OpId
  exits : List Point
  /-- The operations strictly inside, in increasing order. -/
  ops : List OpId
  deriving DecidableEq, Repr, Inhabited

namespace AtomicRegion

variable (prog : Program)

/-- How the run from a point through its block comes out. -/
inductive Outcome where
  | closed (o : OpId)
  | returned (o : OpId)
  | tooDeep
  | ended
  deriving DecidableEq, Repr

structure Run where
  inside : List OpId := []
  /-- How many nested regions are open at each branch. -/
  branches : List Nat := []
  outcome : Outcome
  deriving DecidableEq, Repr

def Run.add (o : OpId) (r : Run) : Run := { r with inside := o :: r.inside }

def Run.branch (depth : Nat) (r : Run) : Run := { r with branches := depth :: r.branches }

def runOps (maxDepth : Nat) : Nat → List OpId → Run
  | _, [] => { outcome := .ended }
  | depth, o :: rest =>
    match prog.kind o with
    | .library .atomicBegin =>
      if depth + 1 > maxDepth then { outcome := .tooDeep } else runOps maxDepth (depth + 1) rest
    | .library .atomicEnd =>
      match depth with
      | 0 => { outcome := .closed o }
      | d + 1 => runOps maxDepth d rest
    | .terminator .ret => { outcome := .returned o }
    | .terminator .branch => ((runOps maxDepth depth rest).branch depth).add o
    | _ => (runOps maxDepth depth rest).add o

/-- A point inside a region, and how many nested regions are open there. -/
abbrev Position := Point × Nat

def runAt (maxDepth : Nat) (s : Position) : Run :=
  runOps prog maxDepth s.2 ((s.1.ops? prog).getD [])

/-- Positions that follow. The last successor of the last branch is followed first. -/
def next (maxDepth : Nat) (s : Position) : List Position :=
  ((runAt prog maxDepth s).branches.flatMap fun depth =>
    (prog.block s.1.block).succs.map fun b => (Point.entry b, depth)).reverse

theorem mem_next {prog : Program} {maxDepth : Nat} {s t : Position} :
    t ∈ next prog maxDepth s ↔ ∃ depth ∈ (runAt prog maxDepth s).branches,
      ∃ b ∈ (prog.block s.1.block).succs, (Point.entry b, depth) = t := by
  simp [next]

def runs (start : OpId) : List Run :=
  let p := prog.procOf start
  let maxDepth := (prog.procOps p).length
  let count := (maxDepth + 1) * ((prog.proc p).blocks.length + 1)
  (Graph.reachableFrom count (next prog maxDepth) (prog.pointAfter start, 0)).map
    (runAt prog maxDepth)

def Outcome.end? : Outcome → Option OpId
  | .closed o => some o
  | _ => none

def Outcome.unmatched? : Outcome → Option (Option String)
  | .returned o => some (some s!"returns at {prog.describe o} inside the region")
  | .tooDeep => some none
  | _ => none

def distinct (seen : List OpId) : List OpId → List OpId
  | [] => []
  | x :: xs => if x ∈ seen then distinct seen xs else x :: distinct (x :: seen) xs

def unmatched {α : Type} (start : OpId) (note : Option String) : Checked α :=
  .error (.error ⟨.unmatchedAtomic (prog.describe start), note⟩)

/-- Scan the region that starts after an operation. -/
def scan (m : Movability) (start : OpId) : Checked AtomicRegion := do
  let _ ← Checked.index (prog.op? start)
  let rs := runs prog start
  match rs.findSome? fun r => r.outcome.unmatched? prog with
  | some note => unmatched prog start note
  | none =>
    match distinct [] (rs.filterMap fun r => r.outcome.end?) with
    | [] => unmatched prog start none
    | ends =>
      let ops := sortNats (rs.flatMap (·.inside))
      return {
        start
        kind := Mover.joinAll (ops.map (m.effect prog))
        ends
        exits := ends.map prog.pointAfter
        ops }

end AtomicRegion

end YieldPlan
