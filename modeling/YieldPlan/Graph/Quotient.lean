import YieldPlan.Graph.BitMatrix
import YieldPlan.Table

/-! A quotient graph over strongly connected components that keeps its transitive closure. A node is
linked only to nodes that are locked, whose rows are final, so one union of rows per link is enough.
-/

namespace YieldPlan

abbrev NodeId := Nat

inductive OrderFault where
  | repeatedMember (member : String) (first second : NodeId)
  | selfLink (node : NodeId)
  | sourceLocked (source target : NodeId)
  | targetUnlocked (source target : NodeId)
  | successorLate
  | calleeLate (proc : String)
  deriving DecidableEq, Repr

def OrderFault.message : OrderFault → String
  | .repeatedMember member first second =>
    s!"{member} was added to node {first} and again to node {second}"
  | .selfLink node => s!"self link on trivial node {node}"
  | .sourceLocked source target => s!"link {source} -> {target}: source node is already locked"
  | .targetUnlocked source target => s!"link {source} -> {target}: target node is not locked yet"
  | .successorLate => "successor block processed after its predecessor"
  | .calleeLate proc => s!"`{proc}` has not been processed before its callers"

def OrderFault.fail {α : Type} (f : OrderFault) : Checked α :=
  Checked.fail (.orderingViolation f.message)

/-- A node stands for a component; a non-trivial one reaches itself. -/
structure QuotientNode where
  nonTrivial : Bool
  locked : Bool := false
  members : List Nat := []
  parent : Option NodeId := none
  deriving DecidableEq, Repr, Inhabited

structure Quotient where
  nodes : Array QuotientNode := #[]
  rows : BitMatrix := {}
  home : Table Nat NodeId := {}
  deriving DecidableEq, Repr, Inhabited

namespace Quotient

variable (g : Quotient)

def size : Nat := g.nodes.size

def node (n : NodeId) : Checked QuotientNode := Checked.index g.nodes[n]?

def create (nonTrivial : Bool) : Checked (Quotient × NodeId) := do
  let n := g.nodes.size
  let rows ← g.rows.ensure (n + 1) (n + 1)
  let rows ← if nonTrivial then rows.set n n else pure rows
  return ({ g with nodes := g.nodes.push { nonTrivial }, rows }, n)

def nodeOf? (e : Nat) : Option NodeId := g.home.get? e

/-- Put an element into a node. The element's home changes even if the node is missing or the
element had a home before; the members change only if all is well. -/
def addMember (label : Nat → String) (n : NodeId) (e : Nat) : Quotient × Checked Unit :=
  let moved := { g with home := g.home.put e n }
  match g.home.get? e with
  | some first => (moved, (OrderFault.repeatedMember (label e) first n).fail)
  | none =>
    match g.nodes[n]? with
    | none => (moved, .error (.defect .outOfRange))
    | some node =>
      ({ moved with
          nodes := g.nodes.setIfInBounds n { node with members := node.members ++ [e] } }, .ok ())

def modify (n : NodeId) (f : QuotientNode → QuotientNode) : Checked Quotient := do
  let node ← g.node n
  return { g with nodes := g.nodes.setIfInBounds n (f node) }

def setParent (n parent : NodeId) : Checked Quotient :=
  g.modify n fun node => { node with parent := some parent }

def lock (n : NodeId) : Checked Quotient := g.modify n fun node => { node with locked := true }

/-- The source reaches the target and all that the target reaches. -/
def link (source target : NodeId) : Checked Quotient :=
  if source = target then do
    if (← g.node source).nonTrivial then return g
    (OrderFault.selfLink source).fail
  else do
    if (← g.node source).locked then (OrderFault.sourceLocked source target).fail
    else if !(← g.node target).locked then (OrderFault.targetUnlocked source target).fail
    else
      let rows ← g.rows.set source target
      let rows ← rows.unite source target
      return { g with rows }

/-- Does a locked node reach another? -/
def reaches (a b : NodeId) : Checked Bool := do
  if (← g.node a).locked then g.rows.get a b
  else .error (.defect (.unlockedQuery a))

end Quotient

end YieldPlan
