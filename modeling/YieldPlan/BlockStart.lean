import YieldPlan.Sorting
import YieldPlan.Table
import YieldPlan.Threads

/-! Requests to start a new block at an operation. At one operation of a thread the strongest
request wins and keeps the number of the first. -/

namespace YieldPlan

/-- Kinds of requests, the weakest first. -/
inductive BlockKind where
  /-- Break a loop or a path that meets another. -/
  | loopBreak
  /-- Note that the commit point is passed. -/
  | phaseShift
  /-- Yield if the commit point is passed. -/
  | phaseDynamic
  /-- Yield if the commit point is passed and a conflicting block of another thread is active. -/
  | dynamicConflict
  /-- Always yield. -/
  | static
  deriving DecidableEq, Repr, Inhabited

namespace BlockKind

def strength : BlockKind → Nat
  | .loopBreak => 0
  | .phaseShift => 1
  | .phaseDynamic => 2
  | .dynamicConflict => 3
  | .static => 4

def isDynamic : BlockKind → Bool
  | .phaseShift | .phaseDynamic | .dynamicConflict => true
  | .loopBreak | .static => false

def name : BlockKind → String
  | .loopBreak => "loop-break"
  | .phaseShift => "phase-shift"
  | .phaseDynamic => "phase-dynamic"
  | .dynamicConflict => "dynamic-conflict"
  | .static => "static"

theorem strength_injective {a b : BlockKind} (h : a.strength = b.strength) : a = b := by
  cases a <;> cases b <;> simp_all [strength]

end BlockKind

/-- On which side of its operation a request takes effect. -/
inductive Placement where
  | before | after
  deriving DecidableEq, Repr, Inhabited

def Placement.name : Placement → String
  | .before => "before"
  | .after => "after"

structure BlockStart where
  op : OpId
  kind : BlockKind
  id : Nat
  placement : Placement
  /-- Operations of other threads that a conflict check looks for. -/
  sources : List OpId
  deriving DecidableEq, Repr, Inhabited

/-- What became of a request. -/
inductive Filed where
  | new
  | upgraded (old : BlockKind)
  | dropped
  deriving DecidableEq, Repr

/-- The requests of every thread, in the order they were filed. -/
structure BlockStarts where
  threads : Table ThreadId (List BlockStart) := {}
  deriving DecidableEq, Repr, Inhabited

namespace BlockStarts

def ofThread (s : BlockStarts) (t : ThreadId) : List BlockStart := (s.threads.get? t).getD []

def get? (s : BlockStarts) (t : ThreadId) (o : OpId) : Option BlockStart :=
  (s.ofThread t).find? fun r => r.op = o

def size (s : BlockStarts) : Nat := s.threads.entries.foldr (fun e n => e.2.length + n) 0

def merge (old : BlockStart) (kind : BlockKind) (placement : Placement) (sources : List OpId) :
    BlockStart × Filed :=
  let united := sortNats (old.sources ++ sources)
  if old.kind.strength < kind.strength then
    ({ old with kind, placement, sources := united }, .upgraded old.kind)
  else if kind = old.kind then ({ old with sources := united }, .dropped)
  else (old, .dropped)

def file (s : BlockStarts) (t : ThreadId) (o : OpId) (kind : BlockKind) (placement : Placement)
    (sources : List OpId) : BlockStarts × Filed :=
  let requests := s.ofThread t
  match s.get? t o with
  | some old =>
    let (new, filed) := merge old kind placement sources
    (⟨s.threads.put t (requests.map fun r => if r.op = o then new else r)⟩, filed)
  | none =>
    (⟨s.threads.put t (requests ++ [{ op := o, kind, id := requests.length, placement, sources }])⟩,
      .new)

end BlockStarts

end YieldPlan
