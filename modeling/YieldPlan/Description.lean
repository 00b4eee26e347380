import YieldPlan.Access

/-! Descriptions of concurrent programs, as they are handed in. A block lists its body only: with
successors it ends in a branch, without any it returns. -/

namespace YieldPlan

inductive OperationDesc where
  | access (kind : Access) (loc : Option String)
  | local
  | debug
  /-- A call to a procedure of the program or to a library function. The argument names the lock of
  a lock call and the started procedure of a thread creation. -/
  | call (callee : String) (arg : Option String)
  deriving DecidableEq, Repr, Inhabited

structure BlockDesc where
  name : String
  ops : List OperationDesc := []
  succs : List String := []
  deriving DecidableEq, Repr, Inhabited

structure ProcedureDesc where
  name : String
  /-- The first block is the entry. -/
  blocks : List BlockDesc
  deriving DecidableEq, Repr, Inhabited

structure Description where
  /-- The procedure that runs as the first thread. -/
  main : String := "main"
  procedures : List ProcedureDesc
  deriving DecidableEq, Repr, Inhabited

end YieldPlan
