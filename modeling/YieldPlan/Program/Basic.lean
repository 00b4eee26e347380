import YieldPlan.Access
import YieldPlan.Error

/-! The program model: procedures own blocks, blocks own operations, and all three are numbered
densely in the order they were made. The accessors are total; an index out of range reads as a blank
entry, and `Program.op?` and its like tell the difference. -/

namespace YieldPlan

inductive LibraryKind where
  | yield | threadCreate | threadJoin
  | mutexLock | mutexUnlock | readLock | writeLock | rwUnlock | mutexInit
  | atomicBegin | atomicEnd | assert
  deriving DecidableEq, Repr, Inhabited

/-- Recognized names. The first name of a kind is its canonical one. -/
def recognizedNames : List (String × LibraryKind) :=
  [("pthread_yield", .yield), ("sched_yield", .yield), ("thrd_yield", .yield),
    ("pthread_create", .threadCreate), ("thrd_create", .threadCreate),
    ("pthread_join", .threadJoin), ("thrd_join", .threadJoin),
    ("pthread_mutex_lock", .mutexLock), ("mtx_lock", .mutexLock),
    ("pthread_mutex_unlock", .mutexUnlock), ("mtx_unlock", .mutexUnlock),
    ("pthread_rwlock_rdlock", .readLock), ("pthread_rwlock_wrlock", .writeLock),
    ("pthread_rwlock_unlock", .rwUnlock),
    ("pthread_mutex_init", .mutexInit), ("pthread_rwlock_init", .mutexInit),
    ("mtx_init", .mutexInit),
    ("__VERIFIER_atomic_begin", .atomicBegin), ("__VERIFIER_atomic_end", .atomicEnd),
    ("__VERIFIER_assert", .assert), ("__assert_fail", .assert), ("assert", .assert)]

def LibraryKind.ofName? (name : String) : Option LibraryKind :=
  (recognizedNames.find? fun e => e.1 == name).map (·.2)

def LibraryKind.canonicalName (k : LibraryKind) : String :=
  ((recognizedNames.find? fun e => e.2 == k).map (·.1)).getD ""

theorem LibraryKind.ofName?_canonicalName (k : LibraryKind) :
    LibraryKind.ofName? k.canonicalName = some k := by
  cases k <;> decide

abbrev ProcId := Nat
abbrev BlockId := Nat
abbrev OpId := Nat

/-- A call to a library function. Lock calls carry the location of the lock. -/
inductive LibraryCall where
  | yield
  | threadCreate (target : ProcId)
  | threadJoin
  | mutexLock (lock : Location)
  | mutexUnlock (lock : Location)
  | readLock (lock : Location)
  | writeLock (lock : Location)
  | rwUnlock (lock : Location)
  | mutexInit (lock : Location)
  | atomicBegin
  | atomicEnd
  | assert
  | unknown (name : String)
  deriving DecidableEq, Repr, Inhabited

inductive Terminator where
  | branch
  | ret
  deriving DecidableEq, Repr, Inhabited

inductive OpKind where
  | memory (access : Access) (loc : Location)
  | call (callee : ProcId)
  | library (call : LibraryCall)
  | local
  | debug
  | terminator (t : Terminator)
  deriving DecidableEq, Repr

instance : Inhabited OpKind := ⟨.debug⟩

namespace OpKind

def isMemory : OpKind → Bool
  | .memory .. => true
  | _ => false

def isTerminator : OpKind → Bool
  | .terminator _ => true
  | _ => false

def isAtomicUpdate : OpKind → Bool
  | .memory .atomicUpdate _ => true
  | _ => false

/-- The procedure that the operation enters: the callee of a call or the target of a thread
creation. -/
def callEdge? : OpKind → Option ProcId
  | .call p => some p
  | .library (.threadCreate p) => some p
  | _ => none

/-- The callee of a call to a procedure. -/
def callee? : OpKind → Option ProcId
  | .call p => some p
  | _ => none

theorem callee?_eq_some {k : OpKind} {p : ProcId} : k.callee? = some p ↔ k = .call p := by
  cases k <;> simp [callee?]

/-- The target of a thread creation. -/
def spawn? : OpKind → Option ProcId
  | .library (.threadCreate p) => some p
  | _ => none

end OpKind

structure Operation where
  block : BlockId
  position : Nat
  kind : OpKind
  deriving DecidableEq, Repr, Inhabited

structure Block where
  name : String
  proc : ProcId
  /-- Operations in order, the terminator last. -/
  ops : List OpId := []
  succs : List BlockId := []
  deriving DecidableEq, Repr, Inhabited

structure Procedure where
  name : String
  blocks : List BlockId := []
  /-- The first block added, if there is one. -/
  entry : Option BlockId := none
  deriving DecidableEq, Repr, Inhabited

structure Program where
  procs : Array Procedure := #[]
  blocks : Array Block := #[]
  ops : Array Operation := #[]
  /-- The name of the procedure that runs as the first thread. -/
  entrypoint : String := "main"
  /-- Options for single passes, in the form `pass:option` or `pass:option=value`. -/
  extraOptions : List String := []
  deriving DecidableEq, Repr, Inhabited

namespace Program

variable (prog : Program)

def proc? (p : ProcId) : Option Procedure := prog.procs[p]?
def block? (b : BlockId) : Option Block := prog.blocks[b]?
def op? (o : OpId) : Option Operation := prog.ops[o]?

def proc (p : ProcId) : Procedure := (prog.proc? p).getD default
def block (b : BlockId) : Block := (prog.block? b).getD default
def op (o : OpId) : Operation := (prog.op? o).getD default

def kind (o : OpId) : OpKind := (prog.op o).kind
def blockOf (o : OpId) : BlockId := (prog.op o).block
def procOf (o : OpId) : ProcId := (prog.block (prog.blockOf o)).proc

def procIds : List ProcId := List.range prog.procs.size
def blockIds : List BlockId := List.range prog.blocks.size
def opIds : List OpId := List.range prog.ops.size

def findProc? (name : String) : Option ProcId := prog.procs.findIdx? fun p => p.name == name

def findBlock? (p : ProcId) (name : String) : Option BlockId :=
  (prog.proc p).blocks.find? fun b => (prog.block b).name == name

def main : Checked ProcId :=
  match prog.findProc? prog.entrypoint with
  | some p => .ok p
  | none =>
    .error (.error ⟨.missingMain, some s!"expected a procedure named `{prog.entrypoint}`"⟩)

def entryBlock? (p : ProcId) : Option BlockId := (prog.proc? p).bind (·.entry)

def entryBlock (p : ProcId) : BlockId := (prog.entryBlock? p).getD 0

def opAt? (b : BlockId) (position : Nat) : Option OpId := (prog.block b).ops[position]?

def entryOp? (p : ProcId) : Option OpId := (prog.entryBlock? p).bind fun b => prog.opAt? b 0

def terminator? (b : BlockId) : Option Terminator :=
  (prog.block b).ops.getLast?.bind fun o =>
    match prog.kind o with
    | .terminator t => some t
    | _ => none

def procName (p : ProcId) : String := (prog.proc p).name

/-- Where an operation stands: `proc.block[position]`. -/
def describe (o : OpId) : String :=
  let b := prog.block (prog.blockOf o)
  s!"{prog.procName b.proc}.{b.name}[{(prog.op o).position}]"

/-- The operations of a procedure, block by block. -/
def procOps (p : ProcId) : List OpId := (prog.proc p).blocks.flatMap fun b => (prog.block b).ops

end Program

end YieldPlan
