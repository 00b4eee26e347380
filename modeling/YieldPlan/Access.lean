/-! Memory accesses and the storage they touch. -/

namespace YieldPlan

inductive Access where
  | read
  | write
  | update
  /-- An update that commutes with every other atomic update of the same location. -/
  | atomicUpdate
  deriving DecidableEq, Repr, Inhabited

def Access.name : Access → String
  | .read => "read"
  | .write => "write"
  | .update => "update"
  | .atomicUpdate => "atomic_update"

def Access.all : List Access := [.read, .write, .update, .atomicUpdate]

def Access.ofName? (s : String) : Option Access := Access.all.find? fun a => a.name == s

theorem Access.ofName?_name (a : Access) : Access.ofName? a.name = some a := by
  cases a <;> decide

/-- Storage that a memory operation touches or that identifies a lock. -/
inductive Location where
  | named (name : String)
  | unknown
  deriving DecidableEq, Repr, Inhabited

def Location.ofName? : Option String → Location
  | some name => .named name
  | none => .unknown

def Location.text : Location → String
  | .named name => name
  | .unknown => "?"

end YieldPlan
