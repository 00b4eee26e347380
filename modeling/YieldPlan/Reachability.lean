import YieldPlan.CallGraph
import YieldPlan.Graph.Quotient
import YieldPlan.Log

/-! Which operation can follow which, over the whole program. Procedures are added callees first.
Each component of blocks becomes a node of the block graph. In the graph of operations a loop is one
node that reaches itself, and a block outside loops is cut after each call and thread creation, so
that what follows a call is reached only if the callee can return. -/

namespace YieldPlan

structure Reachability where
  blocks : Quotient := {}
  ops : Quotient := {}
  returns : Table ProcId Bool := {}
  deriving DecidableEq, Repr, Inhabited

namespace Reachability

variable (prog : Program)

def blockLabel (b : BlockId) : String := s!"BlockIdx({b})"
def opLabel (o : OpId) : String := s!"OpIdx({o})"

/-- Can control flow from `a` to `b`? An operation reaches itself only inside a loop. -/
def query (r : Reachability) (a b : OpId) : Checked Bool :=
  match r.ops.nodeOf? a, r.ops.nodeOf? b with
  | some na, some nb => do
    if na = nb then
      return (← r.ops.node na).nonTrivial || (prog.op a).position < (prog.op b).position
    else r.ops.reaches na nb
  | _, _ => .ok false

/-- The same between blocks. -/
def queryBlock (r : Reachability) (a b : BlockId) : Checked Bool :=
  match r.blocks.nodeOf? a, r.blocks.nodeOf? b with
  | some na, some nb => do
    if na = nb then return (← r.blocks.node na).nonTrivial
    else r.blocks.reaches na nb
  | _, _ => .ok false

def reach (r : Reachability) (a b : OpId) : Bool :=
  match r.query prog a b with
  | .ok answer => answer
  | .error _ => false

def reachBlock (r : Reachability) (a b : BlockId) : Bool :=
  match r.queryBlock a b with
  | .ok answer => answer
  | .error _ => false

def mayReturn (r : Reachability) (p : ProcId) : Bool := (r.returns.get? p).getD false

def addMembers (label : Nat → String) (g : Quotient) (n : NodeId) : List Nat → Checked Quotient
  | [] => .ok g
  | e :: rest =>
    match g.addMember label n e with
    | (g, .ok ()) => addMembers label g n rest
    | (_, .error f) => .error f

def linkAll (g : Quotient) (n : NodeId) : List (Checked NodeId) → Checked Quotient
  | [] => .ok g
  | target :: rest => do linkAll (← g.link n (← target)) n rest

def entryNodes (r : Reachability) (p : ProcId) : Checked (NodeId × NodeId) := do
  let proc ← Checked.index (prog.proc? p)
  match proc.entry.bind r.blocks.nodeOf?, (prog.entryOp? p).bind r.ops.nodeOf? with
  | some b, some o => return (b, o)
  | _, _ => (OrderFault.calleeLate proc.name).fail

def entryBlockNode (r : Reachability) (p : ProcId) : Checked NodeId :=
  return (← r.entryNodes prog p).1

def entryOpNode (r : Reachability) (p : ProcId) : Checked NodeId :=
  return (← r.entryNodes prog p).2

def successorNode (r : Reachability) (b : BlockId) : Checked NodeId :=
  match r.blocks.nodeOf? b with
  | some n => .ok n
  | none => OrderFault.successorLate.fail

def firstNode (r : Reachability) (b : BlockId) : Checked NodeId := do
  let o ← Checked.index (prog.opAt? b 0)
  match r.ops.nodeOf? o with
  | some n => return n
  | none => OrderFault.successorLate.fail

def entered (ops : List OpId) : List ProcId := ops.filterMap fun o => (prog.kind o).callEdge?

def linkBlock (r : Reachability) (inside : List BlockId) (n : NodeId) (b : BlockId) :
    Checked Reachability := do
  let block ← Checked.index (prog.block? b)
  let outside := block.succs.filter fun s => !inside.contains s
  let g ← linkAll r.blocks n (outside.map r.successorNode)
  let g ← linkAll g n ((entered prog block.ops).map (r.entryBlockNode prog))
  return { r with blocks := g }

def linkBlocks (inside : List BlockId) (n : NodeId) :
    Reachability → List BlockId → Checked Reachability
  | r, [] => .ok r
  | r, b :: rest => do linkBlocks inside n (← r.linkBlock prog inside n b) rest

def addComponent (r : Reachability) (members : List BlockId) (nonTrivial : Bool) :
    Checked (Reachability × NodeId) := do
  let (g, n) ← r.blocks.create nonTrivial
  let g ← addMembers blockLabel g n members
  let r ← linkBlocks prog members n { r with blocks := g } members
  let g ← r.blocks.lock n
  return ({ r with blocks := g }, n)

def addLoopOps (n : NodeId) : Reachability → List OpId → Checked Reachability
  | r, [] => .ok r
  | r, o :: rest => do
    let g ← addMembers opLabel r.ops n [o]
    let r := { r with ops := g }
    let g ← linkAll r.ops n ((entered prog [o]).map (r.entryOpNode prog))
    addLoopOps n { r with ops := g } rest

def addLoopBlocks (inside : List BlockId) (n : NodeId) :
    Reachability → List BlockId → Checked Reachability
  | r, [] => .ok r
  | r, b :: rest => do
    let block ← Checked.index (prog.block? b)
    let r ← addLoopOps prog n r block.ops
    let outside := block.succs.filter fun s => !inside.contains s
    let g ← linkAll r.ops n (outside.map (r.firstNode prog))
    addLoopBlocks inside n { r with ops := g } rest

/-- A whole loop is one operation node. -/
def addLoop (r : Reachability) (members : List BlockId) (parent : NodeId) :
    Checked Reachability := do
  let (g, n) ← r.ops.create true
  let g ← g.setParent n parent
  let r ← addLoopBlocks prog members n { r with ops := g } members
  let g ← r.ops.lock n
  return { r with ops := g }

/-- Cut a list of operations after each call and thread creation. -/
def segments : List OpId → List (List OpId)
  | [] => []
  | o :: rest =>
    match (prog.kind o).callEdge?, segments rest with
    | some _, segs => [o] :: segs
    | none, [] => [[o]]
    | none, seg :: segs => (o :: seg) :: segs

/-- The nodes that a segment leads to: the entered procedure, and what follows if control comes
back; or the successors of the block after its last segment. -/
def segmentTargets (r : Reachability) (b : BlockId) (cont : Option NodeId) (segment : List OpId) :
    List (Checked NodeId) :=
  match segment.getLast?.bind fun o => (prog.kind o).callEdge? with
  | some p =>
    let spawns := segment.getLast?.any fun o => (prog.kind o).spawn?.isSome
    let back := if spawns || r.mayReturn p then cont.toList else []
    r.entryOpNode prog p :: back.map .ok
  | none => (prog.block b).succs.map (r.firstNode prog)

def addSegments (b : BlockId) (parent : NodeId) :
    Reachability → Option NodeId → List (List OpId) → Checked Reachability
  | r, _, [] => .ok r
  | r, cont, segment :: rest => do
    let (g, n) ← r.ops.create false
    let g ← g.setParent n parent
    let g ← addMembers opLabel g n segment
    let r := { r with ops := g }
    let g ← linkAll r.ops n (r.segmentTargets prog b cont segment)
    let g ← g.lock n
    addSegments b parent { r with ops := g } (some n) rest

/-- A component is a loop if it has several blocks or a block that succeeds itself. -/
def isLoop (members : List BlockId) : Bool :=
  match members with
  | [b] => (prog.block b).succs.contains b
  | _ => true

def addOps (r : Reachability) (members : List BlockId) (parent : NodeId) : Checked Reachability :=
  if isLoop prog members then r.addLoop prog members parent
  else
    let b := members.headD 0
    addSegments prog b parent r none (segments prog (prog.block b).ops).reverse

def addComponents (r : Reachability) : List (List BlockId) → Checked Reachability
  | [] => .ok r
  | members :: rest => do
    let (r, n) ← r.addComponent prog members (isLoop prog members)
    let r ← r.addOps prog members n
    addComponents r rest

def hasReturn (r : Reachability) (entry : OpId) : List OpId → Checked Bool
  | [] => .ok false
  | o :: rest => do
    if prog.kind o = .terminator .ret then
      if o = entry then return true
      if ← r.query prog entry o then return true
    hasReturn r entry rest

def blockComponents (proc : Procedure) : List (List BlockId) :=
  Graph.components proc.blocks fun b => (prog.block b).succs.reverse

def addProc (r : Reachability) (p : ProcId) : Traced Reachability := do
  let proc ← Checked.index (prog.proc? p)
  let r ← r.addComponents prog (blockComponents prog proc)
  let entry ← Checked.index (prog.entryOp? p)
  let back ← r.hasReturn prog entry (prog.procOps p)
  Traced.log .debug s!"{proc.name}: may return: {back}"
  return { r with returns := r.returns.put p back }

def addProcs (r : Reachability) : List ProcId → Traced Reachability
  | [] => return r
  | p :: rest => do addProcs (← r.addProc prog p) rest

end Reachability

/-- Which operation can follow which, given the procedures in an order that puts callees first. -/
def Program.reachability (prog : Program) (order : List ProcId) : Traced Reachability := do
  let r ← Reachability.addProcs prog {} order
  Traced.log .debug
    s!"reachability: {r.blocks.size} block nodes, {r.ops.size} operation nodes"
  return r

end YieldPlan
