import YieldPlan.Program.Basic
import YieldPlan.Table

/-! Locks that are certainly held at an operation. Lock sets flow forward through the blocks of a
procedure and meet by intersection. Procedures are taken callers first: a procedure starts with what
all its calls hold, and a thread body starts with nothing. What a callee may release is gone after a
call to it. -/

namespace YieldPlan

/-- A lock held exclusively (mutex, write lock) or shared (read lock). -/
structure HeldLock where
  lock : Location
  exclusive : Bool
  deriving DecidableEq, Repr, Inhabited

/-- Locks without repetition; the order does not matter. -/
abbrev LockSet := List HeldLock

namespace LockSet

def acquire (s : LockSet) (h : HeldLock) : LockSet := if h ∈ s then s else h :: s

def meet (s t : LockSet) : LockSet := s.filter fun h => h ∈ t

@[simp] theorem mem_acquire (s : LockSet) (h x : HeldLock) :
    x ∈ s.acquire h ↔ x = h ∨ x ∈ s := by
  unfold acquire
  split
  · constructor
    · exact Or.inr
    · rintro (rfl | hx) <;> assumption
  · simp

@[simp] theorem mem_meet (s t : LockSet) (x : HeldLock) : x ∈ s.meet t ↔ x ∈ s ∧ x ∈ t := by
  simp [meet]

end LockSet

/-- Locks that a procedure may release, itself or through its callees. -/
structure Release where
  /-- A lock of unknown location may be released. -/
  all : Bool := false
  locks : List Location := []
  deriving DecidableEq, Repr, Inhabited

namespace Release

def add (r : Release) : Location → Release
  | .unknown => { r with all := true }
  | l => { r with locks := l :: r.locks }

def merge (r s : Release) : Release := ⟨r.all || s.all, r.locks ++ s.locks⟩

def apply (r : Release) (s : LockSet) : LockSet :=
  if r.all then [] else s.filter fun h => h.lock ∉ r.locks

def single (l : Location) : Release := ({} : Release).add l

end Release

/-- The location that an operation unlocks. -/
def OpKind.released? : OpKind → Option Location
  | .library (.mutexUnlock l) | .library (.rwUnlock l) => some l
  | _ => none

/-- What is held after an operation. -/
def OpKind.lockStep (release : Table ProcId Release) (kind : OpKind) (s : LockSet) : LockSet :=
  match kind with
  | .library (.mutexLock (.named l)) | .library (.writeLock (.named l)) =>
    s.acquire ⟨.named l, true⟩
  | .library (.readLock (.named l)) => s.acquire ⟨.named l, false⟩
  | .library (.mutexUnlock l) | .library (.rwUnlock l) => (Release.single l).apply s
  | .call p =>
    match release.get? p with
    | some r => r.apply s
    | none => s
  | _ => s

structure LockSets where
  held : Table OpId LockSet := {}
  deriving DecidableEq, Repr, Inhabited

namespace LockSets

variable (prog : Program)

def releaseStep (known : Table ProcId Release) (r : Release) (o : OpId) : Release :=
  let r := match (prog.kind o).released? with
    | some l => r.add l
    | none => r
  match (prog.kind o).callee?.bind known.get? with
  | some callee => r.merge callee
  | none => r

def releases (order : List ProcId) : Table ProcId Release :=
  order.foldl (fun known p => known.put p ((prog.procOps p).foldl (releaseStep prog known) {})) {}

/-- Lock sets at the starts of blocks, and the blocks whose successors are still to be updated. -/
structure Flow where
  starts : Table BlockId LockSet
  pending : List BlockId
  deriving DecidableEq, Repr

variable (release : Table ProcId Release)

def blockEnd (b : BlockId) (s : LockSet) : LockSet :=
  (prog.block b).ops.foldl (fun s o => (prog.kind o).lockStep release s) s

def Flow.into (s : LockSet) (f : Flow) (b : BlockId) : Flow :=
  match f.starts.get? b with
  | none => ⟨f.starts.put b s, if b ∈ f.pending then f.pending else f.pending ++ [b]⟩
  | some old =>
    let new := old.meet s
    if new.length = old.length then f
    else ⟨f.starts.put b new, if b ∈ f.pending then f.pending else f.pending ++ [b]⟩

def Flow.step (f : Flow) : Flow :=
  match f.pending with
  | [] => f
  | b :: rest =>
    let s := blockEnd prog release b ((f.starts.get? b).getD [])
    (prog.block b).succs.foldl (Flow.into s) { f with pending := rest }

def Flow.run : Nat → Flow → Flow
  | 0, f => f
  | fuel + 1, f => if f.pending.isEmpty then f else Flow.run fuel (f.step prog release)

/-- Each block is updated at most once when it is met and once for every lock it loses. -/
def flowFuel (p : ProcId) (entry : LockSet) : Nat :=
  (prog.blocks.size + 1) * (entry.length + (prog.procOps p).length + 2)

/-- The lock sets at the starts of the blocks that the entry of a procedure leads to. -/
def blockStarts (p : ProcId) (entry : LockSet) : Table BlockId LockSet :=
  let b := prog.entryBlock p
  (Flow.run prog release (flowFuel prog p entry) ⟨({} : Table BlockId LockSet).put b entry, [b]⟩).starts

structure Progress where
  held : Table OpId LockSet := {}
  entries : Table ProcId LockSet := {}
  deriving DecidableEq, Repr

def Progress.enter (g : Progress) (kind : OpKind) (s : LockSet) : Progress :=
  match kind with
  | .call p =>
    let s := match g.entries.get? p with
      | some old => old.meet s
      | none => s
    { g with entries := g.entries.put p s }
  | .library (.threadCreate p) => { g with entries := g.entries.put p [] }
  | _ => g

def Progress.addOps (s : LockSet) (g : Progress) : List OpId → Progress
  | [] => g
  | o :: rest =>
    let g := g.enter (prog.kind o) s
    Progress.addOps ((prog.kind o).lockStep release s) { g with held := g.held.put o s } rest

def Progress.addProc (g : Progress) (p : ProcId) : Progress :=
  let entry := (g.entries.get? p).getD []
  let starts := blockStarts prog release p entry
  starts.entries.foldl (fun g e => g.addOps prog release e.2 (prog.block e.1).ops)
    { g with entries := g.entries.erase p }

end LockSets

def Program.lockSets (prog : Program) (order : List ProcId) : Checked LockSets :=
  if order.all (· < prog.procs.size) then
    let release := LockSets.releases prog order
    .ok ⟨(order.reverse.foldl (LockSets.Progress.addProc prog release) {}).held⟩
  else .error (.defect .outOfRange)

namespace LockSets

/-- The locks certainly held right before an operation, if it can run at all. -/
def held? (l : LockSets) (o : OpId) : Option LockSet := l.held.get? o

/-- A lock held at both places, exclusively at one of them at least. -/
def shareLock (s t : LockSet) : Bool :=
  s.any fun x => t.any fun y => x.lock = y.lock && (x.exclusive || y.exclusive)

def isProtected (l : LockSets) (a b : OpId) : Bool :=
  match l.held? a, l.held? b with
  | some s, some t => shareLock s t
  | _, _ => false

end LockSets

end YieldPlan
