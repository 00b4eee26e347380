/-! The commit phase of a thread: before the commit point of its transaction, after it, or either,
depending on the path. -/

namespace YieldPlan

inductive Area where
  | pre | post | top
  deriving DecidableEq, Repr, Inhabited

namespace Area

def join (a b : Area) : Area := if a = b then a else .top

def mayBePost : Area → Bool
  | .pre => false
  | .post | .top => true

def name : Area → String
  | .pre => "pre"
  | .post => "post"
  | .top => "top"

def all : List Area := [.pre, .post, .top]

instance : LE Area := ⟨fun a b => a.join b = b⟩

instance (a b : Area) : Decidable (a ≤ b) := inferInstanceAs (Decidable (a.join b = b))

theorem join_comm (a b : Area) : a.join b = b.join a := by cases a <;> cases b <;> rfl

theorem join_assoc (a b c : Area) : (a.join b).join c = a.join (b.join c) := by
  cases a <;> cases b <;> cases c <;> rfl

@[simp] theorem join_self (a : Area) : a.join a = a := by cases a <;> rfl

theorem le_join_left (a b : Area) : a ≤ a.join b := by cases a <;> cases b <;> decide

theorem le_join_right (a b : Area) : b ≤ a.join b := by cases a <;> cases b <;> decide

theorem le_refl (a : Area) : a ≤ a := join_self a

theorem le_trans {a b c : Area} (hab : a ≤ b) (hbc : b ≤ c) : a ≤ c := by
  have hab : a.join b = b := hab
  have hbc : b.join c = c := hbc
  show a.join c = c
  rw [← hbc, ← join_assoc, hab]

theorem le_antisymm {a b : Area} (hab : a ≤ b) (hba : b ≤ a) : a = b := by
  have hab : a.join b = b := hab
  have hba : b.join a = a := hba
  rw [← hab, join_comm, hba]

theorem join_le {a b c : Area} (ha : a ≤ c) (hb : b ≤ c) : a.join b ≤ c := by
  have ha : a.join c = c := ha
  have hb : b.join c = c := hb
  show (a.join b).join c = c
  rw [join_assoc, hb, ha]

theorem join_eq_top_of_ne {a b : Area} (h : a.join b ≠ a) : a.join b = .top := by
  cases a <;> cases b <;> simp_all [join]

end Area

end YieldPlan
