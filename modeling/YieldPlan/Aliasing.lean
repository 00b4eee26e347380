import YieldPlan.Program.Basic
import YieldPlan.Sorting

/-! Which memory operations may touch the same storage. The alias sets of a thread stay disjoint: an
operation that may alias several sets merges them. -/

namespace YieldPlan

/-- May two memory operations touch overlapping storage? -/
abbrev AliasOracle := Operation → Operation → Bool

def OpKind.location? : OpKind → Option Location
  | .memory _ loc => some loc
  | _ => none

/-- Accesses alias when they name the same location or either location is unknown. -/
def locationAliasing : AliasOracle := fun a b =>
  match a.kind.location?, b.kind.location? with
  | some x, some y => x = .unknown || y = .unknown || x = y
  | _, _ => false

def aliasingWithPairs (pairs : List (String × String)) : AliasOracle := fun a b =>
  locationAliasing a b ||
    match a.kind.location?, b.kind.location? with
    | some x, some y =>
      pairs.any fun p => (p.1 = x.text && p.2 = y.text) || (p.1 = y.text && p.2 = x.text)
    | _, _ => false

structure AliasSets where
  sets : List (List OpId) := []
  deriving DecidableEq, Repr, Inhabited

namespace AliasSets

variable (prog : Program) (mayAlias : AliasOracle)

def meets (set : List OpId) (o : OpId) : Bool :=
  set.any fun m => mayAlias (prog.op m) (prog.op o)

def contains (s : AliasSets) (o : OpId) : Bool := s.sets.any fun set => set.contains o

def insert (s : AliasSets) (o : OpId) : AliasSets :=
  if !(prog.kind o).isMemory || s.contains o then s
  else
    let touched := s.sets.filter fun set => meets prog mayAlias set o
    let others := s.sets.filter fun set => !meets prog mayAlias set o
    ⟨others ++ [sortBy (fun a b => a ≤ b) (touched.flatten ++ [o])]⟩

def aliasing (s : AliasSets) (o : OpId) : List (List OpId) :=
  s.sets.filter fun set => meets prog mayAlias set o

def add (s : AliasSets) (o : OpId) : Checked AliasSets := do
  let _ ← Checked.index (prog.op? o)
  return s.insert prog mayAlias o

/-- The same as `aliasing`, for an operation that may be missing; without sets nothing is asked of
it. -/
def query (s : AliasSets) (o : OpId) : Checked (List (List OpId)) :=
  if s.sets.isEmpty then .ok []
  else do
    let _ ← Checked.index (prog.op? o)
    return s.aliasing prog mayAlias o

end AliasSets

end YieldPlan
