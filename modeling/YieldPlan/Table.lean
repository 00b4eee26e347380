/-! Small finite maps. A key is stored at most once, and the key stored last comes first. -/

namespace YieldPlan

structure Table (κ ν : Type) where
  entries : List (κ × ν) := []
  deriving DecidableEq, Repr, Inhabited

namespace Table

variable {κ ν : Type} [DecidableEq κ]

def get? (t : Table κ ν) (k : κ) : Option ν := t.entries.lookup k

def contains (t : Table κ ν) (k : κ) : Bool := (t.get? k).isSome

def put (t : Table κ ν) (k : κ) (v : ν) : Table κ ν :=
  ⟨(k, v) :: t.entries.filter fun e => e.1 ≠ k⟩

def erase (t : Table κ ν) (k : κ) : Table κ ν := ⟨t.entries.filter fun e => e.1 ≠ k⟩

def size (t : Table κ ν) : Nat := t.entries.length

def keys (t : Table κ ν) : List κ := t.entries.map (·.1)

@[simp] theorem get?_empty (k : κ) : (⟨[]⟩ : Table κ ν).get? k = none := rfl

theorem lookup_filter_ne (l : List (κ × ν)) (k j : κ) :
    (l.filter fun e => e.1 ≠ k).lookup j = if j = k then none else l.lookup j := by
  induction l with
  | nil => simp
  | cons e l ih =>
    obtain ⟨a, v⟩ := e
    by_cases h : a = k
    · subst h
      by_cases hj : j = a
      · subst hj; simpa using ih
      · have : (j == a) = false := by simpa using hj
        simp [List.lookup_cons, this, hj] at ih ⊢
        exact ih
    · by_cases hj : j = a
      · subst hj; simp [h]
      · have : (j == a) = false := by simpa using hj
        simp [List.lookup_cons, this, h] at ih ⊢
        exact ih

theorem get?_put (t : Table κ ν) (k j : κ) (v : ν) :
    (t.put k v).get? j = if j = k then some v else t.get? j := by
  unfold put get?
  by_cases h : j = k
  · subst h; simp
  · have : (j == k) = false := by simpa using h
    simp only [List.lookup_cons, this, lookup_filter_ne, h, ↓reduceIte]

theorem get?_erase (t : Table κ ν) (k j : κ) :
    (t.erase k).get? j = if j = k then none else t.get? j := lookup_filter_ne _ _ _

end Table

end YieldPlan
