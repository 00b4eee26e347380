import YieldPlan.Error

/-! A growing table whose keys are numbers of a fixed bit width, handed out in order. Turning an
index into a key keeps only the low bits, so keys repeat once the table outgrows the width. -/

namespace YieldPlan

structure DenseMap (α : Type) where
  width : Nat
  data : Array α := #[]
  deriving Repr

namespace DenseMap

variable {α : Type}

def key (m : DenseMap α) (i : Nat) : Nat := i % Nat.pow 2 m.width

/-- The number of keys that differ. -/
def capacity (m : DenseMap α) : Nat := Nat.pow 2 m.width

def size (m : DenseMap α) : Nat := m.data.size

/-- The table with one more entry, and the key of that entry. -/
def push (m : DenseMap α) (a : α) : DenseMap α × Nat :=
  ({ m with data := m.data.push a }, m.key m.data.size)

def get? (m : DenseMap α) (i : Nat) : Option α := m.data[m.key i]?

def get (m : DenseMap α) (i : Nat) : Checked α := Checked.index (m.get? i)

def set (m : DenseMap α) (i : Nat) (a : α) : Checked (DenseMap α) :=
  if m.key i < m.size then .ok { m with data := m.data.setIfInBounds (m.key i) a }
  else .error (.defect .outOfRange)

def nextKey (m : DenseMap α) : Nat := m.key m.size

def keys (m : DenseMap α) : List Nat := (List.range m.size).map m.key

def values (m : DenseMap α) : List α := m.data.toList

def entries (m : DenseMap α) : List (Nat × α) := m.keys.zip m.values

theorem key_of_lt (m : DenseMap α) {i : Nat} (h : i < m.capacity) : m.key i = i :=
  Nat.mod_eq_of_lt h

theorem get?_of_lt (m : DenseMap α) {i : Nat} (h : i < m.capacity) : m.get? i = m.data[i]? := by
  rw [get?, m.key_of_lt h]

theorem nextKey_of_lt (m : DenseMap α) (h : m.size < m.capacity) : m.nextKey = m.size :=
  m.key_of_lt h

theorem keys_of_size_le (m : DenseMap α) (h : m.size ≤ m.capacity) :
    m.keys = List.range m.size := by
  refine (List.map_congr_left fun i hi => ?_).trans (List.map_id' _)
  exact m.key_of_lt (Nat.lt_of_lt_of_le (List.mem_range.mp hi) h)

/-- Keys are distinct exactly as long as the width has room for them. -/
theorem nodup_keys_iff (m : DenseMap α) : m.keys.Nodup ↔ m.size ≤ m.capacity := by
  constructor
  · intro hnodup
    refine Nat.le_of_not_lt fun hfull => ?_
    have hlength : m.keys.length = m.size := by simp [keys]
    have hpos : 0 < m.capacity := Nat.two_pow_pos m.width
    have hfirst : 0 < m.keys.length := by omega
    have hlast : m.capacity < m.keys.length := by omega
    have hsame : m.keys[0] = m.keys[m.capacity] := by simp [keys, key, capacity]
    have heq := (List.getElem_inj hnodup).mp hsame
    omega
  · intro h
    rw [m.keys_of_size_le h]
    exact List.nodup_range

end DenseMap

end YieldPlan
