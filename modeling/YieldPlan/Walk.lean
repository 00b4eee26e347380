import YieldPlan.Area
import YieldPlan.Log
import YieldPlan.Program.Point
import YieldPlan.Table

/-! A depth-first walk over the points that a thread can reach. The areas recorded for points
outlive a walk. A point is explored when it is first reached, when it is reached with an area that
enlarges the recorded one, even if it is being explored, and when this walk has not explored it yet.
So each walk explores a point at most twice, and twice the number of points of the program bounds
the walk. -/

namespace YieldPlan

inductive Step where
  | continue (area : Area)
  | jump (area : Area) (points : List Point)
  deriving DecidableEq, Repr

inductive Edge where
  /-- The point is being explored: a loop. -/
  | back
  /-- The point was explored before: paths that meet again. -/
  | cross
  deriving DecidableEq, Repr

def Edge.name : Edge → String
  | .back => "back"
  | .cross => "cross"

/-- A computation on a state that is kept when it fails. -/
abbrev Action (σ α : Type) := EStateM Failure σ α

def Action.check {σ α : Type} : Checked α → Action σ α
  | .ok a => pure a
  | .error e => throw e

/-- What a walk does at operations, calls, returns and points that it comes back to. -/
structure Processor (σ : Type) where
  visit : OpId → Area → Action σ Step
  /-- Points that follow a call, given the point after it. -/
  afterCall : OpId → ProcId → Point → Action σ (List Point)
  /-- Points that follow a return from a procedure. -/
  afterReturn : ProcId → Action σ (List Point)
  /-- The area recorded for a point and the one that enlarges it. -/
  revisit : Point → Area → Area → Edge → Action σ Unit

/-- A point under exploration, and its successors that are still to be entered. -/
structure Frame where
  point : Point
  pending : List Point
  out : Area
  deriving DecidableEq, Repr

structure Walk (σ : Type) where
  state : σ
  areas : Table Point Area := {}
  stack : List Frame := []
  /-- How often each point is on the stack. -/
  active : Table Point Nat := {}
  visited : List Point := []

namespace Walk

variable {σ : Type} (prog : Program) (P : Processor σ)

def lift {α : Type} (x : Action σ α) : Action (Walk σ) α := fun w =>
  match x w.state with
  | .ok a s => .ok a { w with state := s }
  | .error e s => .error e { w with state := s }

def record (p : Point) (a : Area) : Action (Walk σ) Unit :=
  modify fun w => { w with areas := w.areas.put p a, visited := p :: w.visited }

/-- Must a point be explored that is reached in an area, and in which area? -/
def enter (p : Point) (incoming : Area) : Action (Walk σ) (Option Area) := do
  let w ← get
  match w.areas.get? p with
  | none =>
    record p incoming
    return some incoming
  | some recorded =>
    let joined := recorded.join incoming
    if joined ≠ recorded then
      let edge := if 0 < (w.active.get? p).getD 0 then Edge.back else .cross
      lift (P.revisit p recorded incoming edge)
      record p joined
      return some joined
    else if p ∈ w.visited then return none
    else
      record p recorded
      return some recorded

def follow (b : Block) (succs : List Point) : OpKind → Action σ (List Point)
  | .terminator .branch => return b.succs.map Point.entry
  | .terminator .ret => P.afterReturn b.proc
  | _ => return succs

/-- Run operations up to a jump, a call or the end of the block. A terminator sets the points that
follow, and the last one of a block prevails. -/
def runOps (b : Block) (area : Area) (succs : List Point) :
    List OpId → Action (Walk σ) (Area × List Point)
  | [] => return (area, succs)
  | o :: rest => do
    match ← lift (P.visit o area) with
    | .jump area points => return (area, points)
    | .continue area =>
      match prog.kind o with
      | .call callee => return (area, ← lift (P.afterCall o callee (prog.pointAfter o)))
      | kind => runOps b area (← lift (follow P b succs kind)) rest

def explore (p : Point) (area : Area) : Action (Walk σ) Unit := do
  let ops ← Action.check (Checked.index (p.ops? prog))
  let (out, pending) ← runOps prog P (prog.block p.block) area [] ops
  modify fun w => { w with
    stack := ⟨p, pending, out⟩ :: w.stack
    active := w.active.put p ((w.active.get? p).getD 0 + 1) }

def reach (p : Point) (area : Area) : Action (Walk σ) Bool := do
  match ← enter P p area with
  | some area =>
    explore prog P p area
    return true
  | none => return false

def leave (p : Point) (rest : List Frame) : Action (Walk σ) Unit :=
  modify fun w => { w with
    stack := rest
    active := w.active.put p ((w.active.get? p).getD 0 - 1) }

inductive Progress where
  | done | moved | explored
  deriving DecidableEq, Repr

def step : Action (Walk σ) Progress := do
  match (← get).stack with
  | [] => return .done
  | f :: rest =>
    match f.pending with
    | [] =>
      leave f.point rest
      return .moved
    | p :: pending =>
      modify fun w => { w with stack := { f with pending } :: rest }
      return if ← reach prog P p f.out then .explored else .moved

/-- Steps that are left if nothing more is explored. -/
def weight (stack : List Frame) : Nat := stack.foldr (fun f n => f.pending.length + 1 + n) 0

def drain (next : Action (Walk σ) Unit) : Nat → Action (Walk σ) Unit
  | 0 => return ()
  | fuel + 1 => do
    match ← step prog P with
    | .done => return ()
    | .moved => drain next fuel
    | .explored => next

/-- Steps until the stack is empty, exploring at most `budget` points. -/
def run : Nat → Action (Walk σ) Unit
  | 0 => return ()
  | budget + 1 => do
    drain prog P (run budget) (weight (← get).stack + 1)

end Walk

def Program.pointCount (prog : Program) : Nat :=
  prog.blocks.toList.foldr (fun b n => b.ops.length + 1 + n) 0

def Program.walk {σ : Type} (prog : Program) (P : Processor σ) (first : Point) (initial : Area) :
    Action (Walk σ) Unit := do
  let _ ← Walk.reach prog P first initial
  Walk.run prog P (2 * prog.pointCount + 1)

end YieldPlan
