import YieldPlan.Analysis
import YieldPlan.BlockStart

/-! Phase tracking. Every thread is walked from its first point with the area of its transaction,
and a block start is requested wherever a mover would leave the thread in the wrong phase. Recorded
areas and requests are kept, so that tracking can be run again on top of them. -/

namespace YieldPlan

/-- How yields are inserted. -/
inductive Mode where
  | static
  /-- Yields guarded by a phase variable and perhaps by a conflict check. -/
  | dynamic
  deriving DecidableEq, Repr, Inhabited

def Mode.name : Mode → String
  | .static => "static"
  | .dynamic => "dynamic"

def Mode.ofName (s : String) : Checked Mode :=
  if s = "static" then .ok .static
  else if s = "dynamic" then .ok .dynamic
  else Checked.fail (.misc s!"unknown mode `{s}`, expected `static` or `dynamic`")

abbrev Demand := Option (BlockKind × Placement)

/-- The area after a mover runs in an area, and the request that keeps the reduction sound. A mover
of kind `none` ends past the commit point even if its request resets the phase. -/
def transition (mode : Mode) (conflictChecks : Bool) (mover : Mover) (area : Area) :
    Area × Demand :=
  match mover, mode with
  | .both, _ => (area, none)
  | .right, .static => (.pre, if area.mayBePost then some (.static, .after) else none)
  | .right, .dynamic => (.pre, if area.mayBePost then some (.phaseDynamic, .after) else none)
  | .left, .static => (.post, none)
  | .left, .dynamic => (.post, if area = .post then none else some (.phaseShift, .after))
  | .none, .static => (.post, if area.mayBePost then some (.static, .after) else none)
  | .none, .dynamic =>
    (.post,
      if !area.mayBePost then some (.phaseShift, .after)
      else if conflictChecks then some (.dynamicConflict, .after)
      else some (.phaseDynamic, .after))

structure PhaseTracker where
  mode : Mode
  conflictChecks : Bool
  regions : Table OpId AtomicRegion := {}
  inRegion : List OpId := []
  /-- End markers met outside of any region. -/
  strayEnds : List OpId := []
  requests : BlockStarts := {}
  /-- The area recorded for every point of every thread. -/
  areas : Table ThreadId (Table Point Area) := {}
  /-- The join of the areas in which each operation was visited. -/
  opAreas : Table OpId Area := {}
  deriving DecidableEq, Repr, Inhabited

namespace PhaseTracker

def area? (pt : PhaseTracker) (o : OpId) : Option Area := pt.opAreas.get? o

def create (cx : Analysis) (mode : Mode) : Traced PhaseTracker := do
  let options ← Pass.track.configure cx.prog.extraOptions
  let off ← (← options.get "no-conflict-check").asFlag
  return { mode, conflictChecks := !off }

def scanRegion (cx : Analysis) (start : OpId) : Traced AtomicRegion := do
  let region ← AtomicRegion.scan cx.prog cx.movability start
  Traced.log .debug
    s!"atomic region at {cx.prog.describe start}: {region.kind.name} with {region.exits.length} exits"
  return region

/-- Scan the regions of begin markers that are not known yet. -/
def addRegions (cx : Analysis) (pt : PhaseTracker) : List OpId → Traced PhaseTracker
  | [] => return pt
  | o :: rest => do
    if pt.regions.contains o then addRegions cx pt rest
    else
      let region ← scanRegion cx o
      addRegions cx { pt with
        regions := pt.regions.put o region
        inRegion := region.ops ++ pt.inRegion } rest

def beginMarkers (cx : Analysis) : List OpId :=
  cx.prog.opIds.filter fun o =>
    cx.prog.kind o = .library .atomicBegin && (cx.conflicts.owner? o).isSome

structure Tracking where
  requests : BlockStarts
  opAreas : Table OpId Area
  strayEnds : List OpId
  /-- Requests filed or strengthened. -/
  changes : Nat := 0
  events : List Event := []
  deriving DecidableEq, Repr

variable (cx : Analysis) (pt : PhaseTracker) (t : ThreadId)

def note (events : List Event) : Action Tracking Unit :=
  modify fun s => { s with events := s.events ++ events }

def filedLine (o : OpId) (kind : BlockKind) (placement : Placement) : Filed → Option Event
  | .new => some (.log .debug s!"{kind.name} request {placement.name} {cx.prog.describe o}")
  | .upgraded old =>
    some (.log (if old.isDynamic then .warn else .debug)
      s!"upgrading {old.name} request at {cx.prog.describe o} to {kind.name}")
  | .dropped => none

/-- File a request. Only conflict checks have sources. -/
def file (o : OpId) (kind : BlockKind) (placement : Placement) (sources : List OpId) :
    Action Tracking Unit := do
  let s ← get
  let sources := if kind = .dynamicConflict then sources else []
  let (requests, filed) := s.requests.file t o kind placement sources
  let changes := if filed = .dropped then s.changes else s.changes + 1
  set { s with requests, changes, events := s.events ++ (filedLine cx o kind placement filed).toList }

def regionOf (start : OpId) : Action Tracking AtomicRegion := do
  match pt.regions.get? start with
  | some region => return region
  | none =>
    let scanned := scanRegion cx start
    note scanned.events
    Action.check scanned.result

def fileAll (kind : BlockKind) (placement : Placement) (sources : List OpId) :
    List OpId → Action Tracking Unit
  | [] => return ()
  | o :: rest => do
    file cx t o kind placement sources
    fileAll kind placement sources rest

/-- Operations that conflict with something inside a region. -/
def regionSources (region : AtomicRegion) : List OpId :=
  sortNats (region.ops.flatMap cx.conflicts.conflictsWith)

/-- A region acts once, by its kind; its request goes to every end. -/
def visitRegion (start : OpId) (area : Area) : Action Tracking Step := do
  let region ← regionOf cx pt start
  let (next, demand) := transition pt.mode pt.conflictChecks region.kind area
  match demand with
  | some (kind, placement) =>
    fileAll cx t kind placement (regionSources cx region) region.ends
  | none => pure ()
  return .jump next region.exits

def visitStrayEnd (o : OpId) (area : Area) : Action Tracking Step := do
  let s ← get
  if o ∉ s.strayEnds then
    set { s with
      strayEnds := o :: s.strayEnds
      events := s.events ++ [Event.log .warn
        s!"ignoring atomic end outside of any atomic region at {cx.prog.describe o}"] }
  return .continue area

def visitMover (o : OpId) (area : Area) : Action Tracking Step := do
  let (next, demand) :=
    transition pt.mode pt.conflictChecks (cx.movability.movable cx.prog o) area
  match demand with
  | some (kind, placement) => file cx t o kind placement (cx.conflicts.conflictsWith o)
  | none => pure ()
  return .continue next

def recordArea (o : OpId) (area : Area) (s : Tracking) : Tracking :=
  let joined := match s.opAreas.get? o with
    | some old => old.join area
    | none => area
  { s with opAreas := s.opAreas.put o joined }

def visit (o : OpId) (area : Area) : Action Tracking Step := do
  modify (recordArea o area)
  match cx.prog.kind o with
  | .library .yield => return .continue .pre
  | .library .atomicBegin => visitRegion cx pt t o area
  | .library .atomicEnd => visitStrayEnd cx o area
  | _ => visitMover cx pt t o area

/-- Returns lead to the recorded return sites, but not into atomic regions; the thread ends with its
own procedure. -/
def afterReturn (p : ProcId) : List Point :=
  if p = (cx.threads.get t).proc then []
  else (cx.ownership.sites p).filter fun site =>
    match cx.prog.opAt? site.block (site.start - 1) with
    | some call => !pt.inRegion.contains call
    | none => true

/-- A loop, or in static mode any meeting of paths, that is entered past the commit point is
broken. -/
def revisitKind (edge : Edge) : BlockKind :=
  match edge, pt.mode with
  | .cross, .dynamic => .phaseDynamic
  | _, _ => .loopBreak

def revisit (p : Point) (incoming : Area) (edge : Edge) : Action Tracking Unit := do
  if incoming ≠ .pre then
    let o ← Action.check (Checked.index (p.op? cx.prog))
    file cx t o (revisitKind pt edge) .before []

def processor : Processor Tracking where
  visit := visit cx pt t
  afterCall := fun _ callee _ => return [Point.entry (cx.prog.entryBlock callee)]
  afterReturn := fun p => return afterReturn cx pt t p
  revisit := fun p _ incoming edge => revisit cx pt t p incoming edge

def walkThread : Action (Walk Tracking) Unit := do
  let first := cx.prog.firstPoint (cx.threads.get t).proc
  let o ← Action.check (Checked.index (first.op? cx.prog))
  Walk.lift (file cx t o .loopBreak .before [])
  cx.prog.walk (processor cx pt t) first .pre

def start : Walk Tracking where
  state := { requests := pt.requests, opAreas := pt.opAreas, strayEnds := pt.strayEnds }
  areas := (pt.areas.get? t).getD {}

def absorb (w : Walk Tracking) : PhaseTracker :=
  { pt with
    requests := w.state.requests
    opAreas := w.state.opAreas
    strayEnds := w.state.strayEnds
    areas := pt.areas.put t w.areas }

def addThread : Traced (PhaseTracker × Nat) :=
  match walkThread cx pt t (start pt t) with
  | .ok _ w => ⟨w.state.events, .ok (pt.absorb t w, w.state.changes)⟩
  | .error e w => ⟨w.state.events, .error e⟩

def addThreads : PhaseTracker → List ThreadId → Traced (PhaseTracker × Nat)
  | pt, [] => return (pt, 0)
  | pt, t :: rest => do
    let (pt, n) ← addThread cx pt t
    let (pt, m) ← addThreads pt rest
    return (pt, n + m)

/-- Walk all threads again, on top of what is recorded. -/
def rerun : Traced (PhaseTracker × Nat) := addThreads cx pt cx.threads.ids

def run : Traced (PhaseTracker × Nat) := do
  let pt ← addRegions cx pt (beginMarkers cx)
  let (pt, changes) ← rerun cx pt
  Traced.log .info
    s!"liptonize: {pt.requests.size} block-start requests in {cx.threads.size} threads"
  return (pt, changes)

end PhaseTracker

end YieldPlan
