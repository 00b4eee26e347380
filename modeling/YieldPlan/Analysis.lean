import YieldPlan.AtomicRegion
import YieldPlan.Program.Validate

/-! All facts about a whole program that phase tracking needs. -/

namespace YieldPlan

structure Analysis where
  prog : Program
  order : List ProcId
  reach : Reachability
  threads : Threads
  ownership : Ownership
  locks : LockSets
  conflicts : Conflicts
  movability : Movability
  deriving DecidableEq, Repr, Inhabited

/-- The shape is right and the entrypoint exists. Procedures that nothing executes are only reported. -/
def Program.checkWellFormed (prog : Program) : Traced Unit := do
  prog.validate
  let main ← prog.main
  let g ← prog.callGraph
  let live := g.reachableFrom main
  let dead := prog.procIds.filter fun p => !live.contains p
  Traced.emit (dead.map fun p => .log .warn s!"procedure `{prog.procName p}` is never executed")

def Program.analyze (prog : Program) (mayAlias : AliasOracle) : Traced Analysis := do
  prog.checkWellFormed
  let g ← prog.callGraph
  let order ← g.postOrder prog
  let reach ← prog.reachability order
  let threads ← prog.threads g order reach
  let ownership ← prog.ownership reach threads mayAlias
  let locks ← prog.lockSets order
  let conflicts ← prog.conflicts threads ownership locks mayAlias
  let movability ← prog.movability order threads conflicts
  return { prog, order, reach, threads, ownership, locks, conflicts, movability }

end YieldPlan
