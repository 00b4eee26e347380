import YieldPlan.Error

/-! Bit vectors and bit matrices that only grow. Every row of a matrix is as long as the matrix is
wide. -/

namespace YieldPlan

def BitVector.maxSize : Nat := Nat.pow 2 61 - 1

structure BitVector where
  bits : Array Bool := #[]
  deriving DecidableEq, Repr, Inhabited

namespace BitVector

def size (v : BitVector) : Nat := v.bits.size

/-- Grow to `len` bits; the new ones are unset. -/
def ensure (v : BitVector) (len : Nat) : Checked BitVector :=
  if len < v.size then .error (.defect (.shrinkVector v.size len))
  else if maxSize < len then .error (.defect .outOfRange)
  else .ok ⟨v.bits ++ Array.replicate (len - v.size) false⟩

def ofSize (len : Nat) : Checked BitVector := BitVector.ensure {} len

def set (v : BitVector) (i : Nat) : Checked BitVector :=
  if i < v.size then .ok ⟨v.bits.setIfInBounds i true⟩
  else .error (.defect (.bitOutOfRange i v.size))

def get (v : BitVector) (i : Nat) : Checked Bool :=
  match v.bits[i]? with
  | some b => .ok b
  | none => .error (.defect (.bitOutOfRange i v.size))

/-- Set every bit that is set in `w`, which must not be longer. -/
def union (v w : BitVector) : Checked BitVector :=
  if v.size < w.size then .error (.defect .longerUnion)
  else .ok ⟨v.bits.mapIdx fun i b => b || w.bits.getD i false⟩

def ones (v : BitVector) : List Nat := (List.range v.size).filter fun i => v.bits.getD i false

end BitVector

structure BitMatrix where
  rows : Array BitVector := #[]
  cols : Nat := 0
  deriving DecidableEq, Repr, Inhabited

namespace BitMatrix

def maxRows : Nat := (Nat.pow 2 63 - 1) / 24

def ensure (m : BitMatrix) (rows cols : Nat) : Checked BitMatrix := do
  if rows < m.rows.size || cols < m.cols then
    throw (.defect (.shrinkMatrix m.rows.size m.cols rows cols))
  else if maxRows < rows then throw (.defect .outOfRange)
  else
    let wide ← m.rows.mapM fun v => v.ensure cols
    if rows = m.rows.size then return ⟨wide, cols⟩
    else return ⟨wide ++ Array.replicate (rows - m.rows.size) (← BitVector.ofSize cols), cols⟩

def row (m : BitMatrix) (r : Nat) : Checked BitVector := Checked.index m.rows[r]?

def set (m : BitMatrix) (r c : Nat) : Checked BitMatrix := do
  let v ← (← m.row r).set c
  return { m with rows := m.rows.setIfInBounds r v }

def get (m : BitMatrix) (r c : Nat) : Checked Bool := do (← m.row r).get c

/-- Unite row `src` into row `dst`. A row united with itself stays as it is, present or not. -/
def unite (m : BitMatrix) (dst src : Nat) : Checked BitMatrix :=
  if dst = src then .ok m
  else do
    let v ← (← m.row dst).union (← m.row src)
    return { m with rows := m.rows.setIfInBounds dst v }

end BitMatrix

end YieldPlan
