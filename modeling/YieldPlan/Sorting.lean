/-! Sorting by insertion, with and without repetitions. -/

namespace YieldPlan

variable {α : Type}

def insertSorted (le : α → α → Bool) (a : α) : List α → List α
  | [] => [a]
  | b :: l => if le a b then a :: b :: l else b :: insertSorted le a l

def sortBy (le : α → α → Bool) (l : List α) : List α := l.foldr (insertSorted le) []

theorem mem_insertSorted (le : α → α → Bool) (a x : α) (l : List α) :
    x ∈ insertSorted le a l ↔ x = a ∨ x ∈ l := by
  induction l with
  | nil => simp [insertSorted]
  | cons b l ih =>
    unfold insertSorted
    split
    · simp
    · simp only [List.mem_cons, ih]
      constructor
      · rintro (h | h | h) <;> simp [h]
      · rintro (h | h | h) <;> simp [h]

@[simp] theorem mem_sortBy (le : α → α → Bool) (x : α) (l : List α) : x ∈ sortBy le l ↔ x ∈ l := by
  induction l with
  | nil => simp [sortBy]
  | cons a l ih => simpa [sortBy, mem_insertSorted] using or_congr Iff.rfl ih

variable [DecidableEq α]

/-- Put an entry in its place unless it is there already. -/
def insertUnique (le : α → α → Bool) (a : α) : List α → List α
  | [] => [a]
  | b :: l => if a = b then b :: l else if le a b then a :: b :: l else b :: insertUnique le a l

def sortUnique (le : α → α → Bool) (l : List α) : List α := l.foldr (insertUnique le) []

theorem mem_insertUnique (le : α → α → Bool) (a x : α) (l : List α) :
    x ∈ insertUnique le a l ↔ x = a ∨ x ∈ l := by
  induction l with
  | nil => simp [insertUnique]
  | cons b l ih =>
    unfold insertUnique
    split
    · next h => subst h; simp
    · split
      · simp
      · simp only [List.mem_cons, ih]
        constructor
        · rintro (h | h | h) <;> simp [h]
        · rintro (h | h | h) <;> simp [h]

@[simp] theorem mem_sortUnique (le : α → α → Bool) (x : α) (l : List α) :
    x ∈ sortUnique le l ↔ x ∈ l := by
  induction l with
  | nil => simp [sortUnique]
  | cons a l ih => simpa [sortUnique, mem_insertUnique] using or_congr Iff.rfl ih

def sortNats (l : List Nat) : List Nat := sortUnique (fun a b => a ≤ b) l

def sortTexts (l : List String) : List String := sortBy (fun a b => decide (a ≤ b)) l

end YieldPlan
