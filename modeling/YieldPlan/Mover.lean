/-! How an operation commutes with operations of other threads, ordered `both` below `left` and
`right`, these below `none`. -/

namespace YieldPlan

inductive Mover where
  | both
  /-- Can move before operations of other threads, as a release does. -/
  | left
  /-- Can move after operations of other threads, as an acquire does. -/
  | right
  | none
  deriving DecidableEq, Repr, Inhabited

namespace Mover

def join : Mover → Mover → Mover
  | .both, m | m, .both => m
  | .left, .left => .left
  | .right, .right => .right
  | _, _ => .none

def name : Mover → String
  | .both => "both"
  | .left => "left"
  | .right => "right"
  | .none => "none"

def all : List Mover := [.both, .left, .right, .none]

instance : LE Mover := ⟨fun a b => a.join b = b⟩

instance (a b : Mover) : Decidable (a ≤ b) := inferInstanceAs (Decidable (a.join b = b))

theorem join_comm (a b : Mover) : a.join b = b.join a := by cases a <;> cases b <;> rfl

theorem join_assoc (a b c : Mover) : (a.join b).join c = a.join (b.join c) := by
  cases a <;> cases b <;> cases c <;> rfl

@[simp] theorem join_self (a : Mover) : a.join a = a := by cases a <;> rfl

@[simp] theorem both_join (a : Mover) : Mover.both.join a = a := by cases a <;> rfl

@[simp] theorem join_both (a : Mover) : a.join .both = a := by cases a <;> rfl

def joinAll (ms : List Mover) : Mover := ms.foldl join .both

end Mover

end YieldPlan
