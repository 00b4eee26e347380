import YieldPlan.Table

/-! Depth-first search and the strongly connected components of a finite graph. Roots are taken in
the order of the node list and the successors of a node in the order given. A component comes when
its last node finishes, so every component comes after those that it leads to. -/

namespace YieldPlan.Graph

variable {α : Type} [DecidableEq α]

structure Search (α : Type) where
  seen : List α := []
  finished : List α := []
  deriving DecidableEq, Repr

/-- Search from a node. The depth is limited by the fuel; as many levels as there are nodes are
always enough. -/
def visit (next : α → List α) : Nat → Search α → α → Search α
  | 0, s, _ => s
  | fuel + 1, s, v =>
    if v ∈ s.seen then s
    else
      let s := (next v).foldl (visit next fuel) { s with seen := v :: s.seen }
      { s with finished := v :: s.finished }

def finishOrder (nodes : List α) (next : α → List α) : List α :=
  (nodes.foldl (visit next nodes.length) {}).finished.reverse

/-- The nodes that paths from `v` meet, `v` first, in the order they are met. The graph has at most
`count` nodes. -/
def reachableFrom (count : Nat) (next : α → List α) (v : α) : List α :=
  (visit next count {} v).seen.reverse

def component (order : List α) (reach : Table α (List α)) (v : α) : List α :=
  let ahead (a b : α) : Bool := ((reach.get? a).getD []).contains b
  order.filter fun u => ahead v u && ahead u v

/-- The strongly connected components, each after those that it leads to. -/
def components (nodes : List α) (next : α → List α) : List (List α) :=
  let order := finishOrder nodes next
  let reach : Table α (List α) := ⟨order.map fun v => (v, reachableFrom nodes.length next v)⟩
  order.filterMap fun v =>
    let members := component order reach v
    if members.getLast? = some v then some members else none

end YieldPlan.Graph
