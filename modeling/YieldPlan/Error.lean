/-! Why a run stops. An `Error` has a cause the user can act on and an optional note; a `Defect` is
a violated internal precondition of the tool. All wording is in `Cause.message` and
`Defect.message?`. -/

namespace YieldPlan

inductive Cause where
  | recursion (procs : List String)
  | missingMain
  | duplicateOwner (op first second : String)
  /-- An atomic region that some path leaves without a matching end marker. -/
  | unmatchedAtomic (op : String)
  | orderingViolation (text : String)
  | malformedProgram (text : String)
  | invalidFile (text : String)
  | misc (text : String)
  deriving DecidableEq, Repr, Inhabited

def Cause.message : Cause → String
  | .recursion procs =>
    "Precondition violation: recursion between procedures " ++
      ", ".intercalate (procs.map fun p => s!"`{p}'") ++
      ". Recursive programs are not supported."
  | .missingMain => "Precondition violation: program has no `main' procedure"
  | .duplicateOwner op first second =>
    s!"Precondition violation: operation {op} is reachable from thread `{first}' and thread `{second}'"
  | .unmatchedAtomic op =>
    s!"Precondition violation: atomic region started at {op} has a path without a matching atomic end"
  | .orderingViolation text => s!"Reachability ordering violation: {text}"
  | .malformedProgram text => s!"Malformed program: {text}"
  | .invalidFile text => text
  | .misc text => text

structure Error where
  cause : Cause
  note : Option String := none
  deriving DecidableEq, Repr, Inhabited

def Error.message (e : Error) : String :=
  match e.note with
  | some note => s!"{e.cause.message}\n{note}"
  | none => e.cause.message

def Error.io (text : String) : Error := ⟨.invalidFile s!"IO Error: {text}", none⟩

def Error.document (text : String) : Error := ⟨.invalidFile s!"JSON Error: {text}", none⟩

/-- A text that could not be put together. -/
def Error.formatting : Error := ⟨.misc "formatting error", none⟩

inductive Defect where
  /-- An index that names no procedure, block, operation, point or row. -/
  | outOfRange
  | shrinkVector (current requested : Nat)
  | shrinkMatrix (rows cols newRows newCols : Nat)
  | bitOutOfRange (bit len : Nat)
  | longerUnion
  | unlockedQuery (node : Nat)
  | expectedBool (found : String)
  | expectedStream (found : String)
  deriving DecidableEq, Repr, Inhabited

/-- The report of a defect. An index out of range has no wording of its own. -/
def Defect.message? : Defect → Option String
  | .outOfRange => none
  | .shrinkVector current requested =>
    some s!"cannot shrink a bit vector from {current} to {requested} bits"
  | .shrinkMatrix rows cols newRows newCols =>
    some s!"cannot shrink a bit matrix from {rows}x{cols} to {newRows}x{newCols}"
  | .bitOutOfRange bit len => some s!"bit {bit} out of range {len}"
  | .longerUnion => some "union with a longer bit vector"
  | .unlockedQuery node => some s!"reachability queried from unlocked node {node}"
  | .expectedBool found => some s!"Expected bool, got {found}"
  | .expectedStream found => some s!"Expected output stream, got {found}"

inductive Failure where
  | error (e : Error)
  | defect (d : Defect)
  deriving DecidableEq, Repr, Inhabited

/-- A computation that stops at its first failure. -/
abbrev Checked (α : Type) := Except Failure α

def Checked.fail {α : Type} (cause : Cause) : Checked α := .error (.error ⟨cause, none⟩)

def Checked.index {α : Type} : Option α → Checked α
  | some a => .ok a
  | none => .error (.defect .outOfRange)

@[simp] theorem Checked.index_some {α : Type} (a : α) : Checked.index (some a) = .ok a := rfl

@[simp] theorem Checked.index_none {α : Type} :
    Checked.index (none : Option α) = .error (.defect .outOfRange) := rfl

theorem Checked.index_ok {α : Type} {x : Option α} {a : α} :
    Checked.index x = .ok a ↔ x = some a := by
  cases x <;> simp

theorem Checked.ok_bind {α β : Type} (a : α) (f : α → Checked β) :
    (Except.ok a : Checked α) >>= f = f a := rfl

theorem Checked.bind_ok {α β : Type} {x : Checked α} {f : α → Checked β} {b : β} :
    x >>= f = .ok b ↔ ∃ a, x = .ok a ∧ f a = .ok b := by
  cases x with
  | ok a => exact ⟨fun h => ⟨a, rfl, h⟩, fun ⟨_, he, h⟩ => by cases he; exact h⟩
  | error e => exact ⟨fun h => (nomatch h), fun ⟨_, he, _⟩ => (nomatch he)⟩

theorem Checked.ok_of_toOption {α : Type} [Inhabited α] {x : Checked α} (h : x.toOption.isSome) :
    x = .ok (x.toOption.getD default) := by
  cases x with
  | ok a => rfl
  | error e => cases h

end YieldPlan
