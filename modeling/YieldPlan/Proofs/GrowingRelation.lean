import Mathlib.Data.Set.Insert
import YieldPlan.Proofs.SizedMatrix

/-! A relation between two ranges of numbers grows: the ranges get wider, and pairs come in one at a
time or with all that another number is related to. A matrix that is given the same updates holds
the pairs of the relation, whatever the order of the updates and wherever one of them fails. Its
rows are all as long as it is wide, so each row has room for any other. -/

namespace YieldPlan

namespace BitMatrix

inductive Update where
  | ensure (rows cols : Nat)
  | set (row col : Nat)
  | unite (dst src : Nat)
  deriving DecidableEq, Repr

def update (m : BitMatrix) : Update → Checked BitMatrix
  | .ensure rows cols => m.ensure rows cols
  | .set row col => m.set row col
  | .unite dst src => m.unite dst src

def updateAll (m : BitMatrix) (us : List Update) : BitMatrix :=
  us.foldl (fun m u => (m.update u).toOption.getD m) m

end BitMatrix

structure GrowingRelation where
  rows : Nat := 0
  cols : Nat := 0
  pairs : Set (Nat × Nat) := ∅

namespace GrowingRelation

open BitMatrix (Update Storable)

/-- The update can be made: it shrinks nothing, fits the storage and is about numbers in range. A
row united with itself need not be there. -/
def Takes (R : GrowingRelation) : Update → Prop
  | .ensure rows cols => (R.rows ≤ rows ∧ R.cols ≤ cols) ∧ Storable rows cols
  | .set row col => row < R.rows ∧ col < R.cols
  | .unite dst src => dst = src ∨ dst < R.rows ∧ src < R.rows

instance (R : GrowingRelation) : (u : Update) → Decidable (R.Takes u)
  | .ensure _ _ => inferInstanceAs (Decidable (_ ∧ _))
  | .set _ _ => inferInstanceAs (Decidable (_ ∧ _))
  | .unite _ _ => inferInstanceAs (Decidable (_ ∨ _))

/-- The relation after an update that can be made. -/
def after (R : GrowingRelation) : Update → GrowingRelation
  | .ensure rows cols => { R with rows, cols }
  | .set row col => { R with pairs := insert (row, col) R.pairs }
  | .unite dst src => { R with pairs := R.pairs ∪ {p | p.1 = dst ∧ (src, p.2) ∈ R.pairs} }

def afterAll (R : GrowingRelation) (us : List Update) : GrowingRelation :=
  us.foldl (fun R u => if R.Takes u then R.after u else R) R

end GrowingRelation

namespace BitMatrix

/-- The matrix is as large as the relation and has its pairs. -/
structure Holds (m : BitMatrix) (R : GrowingRelation) : Prop where
  sized : m.Sized R.rows R.cols
  bit : ∀ r c, m.bit r c = true ↔ (r, c) ∈ R.pairs

variable {m : BitMatrix} {R : GrowingRelation}

theorem holds_empty : Holds {} {} := ⟨sized_empty, fun r c => by simp [bit]⟩

/-- The matrix takes the updates that the relation takes, and then holds the relation after it. -/
theorem Holds.update (h : m.Holds R) {u : Update} (hu : R.Takes u) :
    ∃ m', m.update u = .ok m' ∧ m'.Holds (R.after u) := by
  cases u with
  | ensure rows cols =>
    obtain ⟨⟨hr, hc⟩, hfits⟩ := hu
    obtain ⟨m', hm', hsized, hbit⟩ := h.sized.ensure_ok hr hc hfits
    exact ⟨m', hm', hsized, fun r c => by rw [hbit, h.bit]; rfl⟩
  | set row col =>
    obtain ⟨m', hm', hsized, hbit⟩ := h.sized.set_ok hu.1 hu.2
    refine ⟨m', hm', hsized, fun r c => ?_⟩
    rw [hbit, h.bit, GrowingRelation.after, Set.mem_insert_iff, Prod.mk.injEq]
    exact or_comm
  | unite dst src =>
    obtain ⟨m', hm', hsized, hbit⟩ := h.sized.unite_ok hu
    refine ⟨m', hm', hsized, fun r c => ?_⟩
    rw [hbit, h.bit, h.bit]
    rfl

theorem Holds.update_fails (h : m.Holds R) {u : Update} (hu : ¬ R.Takes u) :
    ∃ e, m.update u = .error e := by
  cases u with
  | ensure rows cols =>
    by_cases hle : R.rows ≤ rows ∧ R.cols ≤ cols
    · exact ⟨_, h.sized.ensure_overflows hle.1 hle.2 fun hfits => hu ⟨hle, hfits⟩⟩
    · exact ⟨_, h.sized.ensure_shrinks (by omega)⟩
  | set row col => exact h.sized.set_fails hu
  | unite dst src => exact ⟨_, h.sized.unite_fails hu⟩

theorem Holds.updateAll (h : m.Holds R) (us : List Update) :
    (m.updateAll us).Holds (R.afterAll us) := by
  induction us generalizing m R with
  | nil => exact h
  | cons u us ih =>
    rw [BitMatrix.updateAll, GrowingRelation.afterAll, List.foldl_cons, List.foldl_cons]
    apply ih
    by_cases hu : R.Takes u
    · obtain ⟨m', hm', h'⟩ := h.update hu
      rw [if_pos hu, hm']
      exact h'
    · obtain ⟨e, he⟩ := h.update_fails hu
      rw [if_neg hu, he]
      exact h

theorem Holds.mem_range (h : m.Holds R) {r c : Nat} (hp : (r, c) ∈ R.pairs) :
    r < R.rows ∧ c < R.cols := by
  have hbit := (h.bit r c).mpr hp
  constructor
  · by_contra hr
    rw [bit_of_none (h.sized.row_none (Nat.le_of_not_lt hr))] at hbit
    cases hbit
  · by_contra hc
    rw [h.sized.bit_of_le (Nat.le_of_not_lt hc)] at hbit
    cases hbit

theorem Holds.get_iff (h : m.Holds R) (r c : Nat) : m.get r c = .ok true ↔ (r, c) ∈ R.pairs := by
  by_cases hrc : r < R.rows ∧ c < R.cols
  · rw [h.sized.get_ok hrc.1 hrc.2, Except.ok.injEq]
    exact h.bit r c
  · obtain ⟨e, he⟩ := h.sized.get_fails hrc
    refine iff_of_false (fun hget => ?_) fun hp => hrc (h.mem_range hp)
    rw [he] at hget
    cases hget

theorem Holds.get_fails_iff (h : m.Holds R) (r c : Nat) :
    (∃ e, m.get r c = .error e) ↔ ¬ (r < R.rows ∧ c < R.cols) := by
  refine ⟨fun ⟨e, he⟩ hrc => ?_, h.sized.get_fails⟩
  rw [h.sized.get_ok hrc.1 hrc.2] at he
  cases he

theorem Holds.row_ok (h : m.Holds R) {r : Nat} (hr : r < R.rows) : ∃ v, m.row r = .ok v ∧
    v.ones.Pairwise (· < ·) ∧ ∀ c, c ∈ v.ones ↔ (r, c) ∈ R.pairs := by
  obtain ⟨v, hv, hrow, -⟩ := h.sized.row_ok hr
  refine ⟨v, hrow, v.pairwise_ones, fun c => ?_⟩
  rw [BitVector.mem_ones, ← bit_eq hv]
  exact h.bit r c

theorem Holds.update_fails_iff (h : m.Holds R) (u : Update) :
    (∃ e, m.update u = .error e) ↔ ¬ R.Takes u := by
  refine ⟨fun ⟨e, he⟩ hu => ?_, h.update_fails⟩
  obtain ⟨m', hm', -⟩ := h.update hu
  rw [he] at hm'
  cases hm'

theorem Holds.never_longer (h : m.Holds R) (dst src : Nat) :
    m.unite dst src ≠ .error (.defect .longerUnion) := by
  intro he
  by_cases hu : R.Takes (.unite dst src)
  · obtain ⟨m', hm', -⟩ := h.sized.unite_ok hu
    rw [he] at hm'
    cases hm'
  · rw [h.sized.unite_fails hu] at he
    cases he

theorem Holds.shrinks_iff (h : m.Holds R) (rows cols : Nat) :
    m.ensure rows cols = .error (.defect (.shrinkMatrix R.rows R.cols rows cols)) ↔
      rows < R.rows ∨ cols < R.cols := by
  refine ⟨fun he => ?_, h.sized.ensure_shrinks⟩
  by_contra hle
  obtain ⟨hr, hc⟩ : R.rows ≤ rows ∧ R.cols ≤ cols := by omega
  by_cases hfits : Storable rows cols
  · obtain ⟨m', hm', -⟩ := h.sized.ensure_ok hr hc hfits
    rw [he] at hm'
    cases hm'
  · rw [h.sized.ensure_overflows hr hc hfits] at he
    cases he

/-- After any updates, failed ones among them, the rows are as long as the matrix is wide, and the
bits that are set are the pairs of the relation that was given the same updates. No union meets a
longer row, and rows that are there can always be united. Growing fails its check exactly if a
dimension would shrink; what passes the check fails only if no storage is large enough. -/
theorem matrix_refines_growing_relation (us : List Update) :
    let m := updateAll {} us
    let R := GrowingRelation.afterAll {} us
    (m.rows.size = R.rows ∧ m.cols = R.cols ∧ ∀ v ∈ m.rows, v.size = m.cols) ∧
    (∀ r c, m.get r c = .ok true ↔ (r, c) ∈ R.pairs) ∧
    (∀ r c, (∃ e, m.get r c = .error e) ↔ ¬ (r < m.rows.size ∧ c < m.cols)) ∧
    (∀ r < m.rows.size, ∃ v, m.row r = .ok v ∧ v.ones.Pairwise (· < ·) ∧
      ∀ c, c ∈ v.ones ↔ (r, c) ∈ R.pairs) ∧
    (∀ u, (∃ e, m.update u = .error e) ↔ ¬ R.Takes u) ∧
    (∀ dst src, m.unite dst src ≠ .error (.defect .longerUnion)) ∧
    (∀ dst < m.rows.size, ∀ src < m.rows.size, ∃ m', m.unite dst src = .ok m') ∧
    (∀ rows cols, m.ensure rows cols =
        .error (.defect (.shrinkMatrix m.rows.size m.cols rows cols)) ↔
      rows < m.rows.size ∨ cols < m.cols) ∧
    (∀ rows cols, (∃ e, m.ensure rows cols = .error e) ↔
      (rows < m.rows.size ∨ cols < m.cols) ∨ ¬ Storable rows cols) := by
  intro m R
  have h : m.Holds R := holds_empty.updateAll us
  rw [h.sized.height, h.sized.width]
  refine ⟨⟨rfl, rfl, fun v hv => ?_⟩, h.get_iff, h.get_fails_iff, fun r => h.row_ok,
    h.update_fails_iff, h.never_longer, fun dst hd src hs => ?_, h.shrinks_iff, fun rows cols => ?_⟩
  · obtain ⟨r, hr, rfl⟩ := Array.getElem_of_mem hv
    exact h.sized.row r _ (Array.getElem?_eq_getElem hr)
  · obtain ⟨m', hm', -⟩ := h.sized.unite_ok (.inr ⟨hd, hs⟩)
    exact ⟨m', hm'⟩
  · refine (h.update_fails_iff (.ensure rows cols)).trans ?_
    rw [GrowingRelation.Takes, Decidable.not_and_iff_not_or_not]
    exact or_congr_left (by omega)

/-- Row 0 is united with a row of its first size and with one that came later. In between the matrix
would shrink, and rows and columns are missing. -/
def unitedRows : List Update :=
  [.ensure 3 3, .set 1 2, .set 2 0, .unite 0 1, .ensure 2 9, .unite 0 4, .set 1 5, .ensure 5 6,
    .set 4 5, .unite 0 4, .unite 4 7]

theorem united_row_has_old_and_new_columns :
    let m := updateAll {} unitedRows
    let R := GrowingRelation.afterAll {} unitedRows
    (0, 2) ∈ R.pairs ∧ (0, 5) ∈ R.pairs ∧ (1, 5) ∉ R.pairs ∧
      (0 < m.rows.size ∧ ∃ v, m.row 0 = .ok v ∧ v.ones = [2, 5] ∧ v.ones.Pairwise (· < ·)) ∧
      (4 < m.rows.size ∧ ∃ m', m.unite 0 4 = .ok m') ∧
      ¬ R.Takes (.unite 4 7) ∧ ∃ e, m.ensure 2 9 = .error e := by
  intro m R
  obtain ⟨-, hget, -, hrow, hfails, -, hunite, -, hensure⟩ :=
    matrix_refines_growing_relation unitedRows
  have hzero : 0 < m.rows.size := by decide +kernel
  have hfour : 4 < m.rows.size := by decide +kernel
  obtain ⟨v, hv, hsorted, -⟩ := hrow 0 hzero
  have hones : (m.row 0).map BitVector.ones = .ok [2, 5] := by decide +kernel
  rw [hv] at hones
  refine ⟨(hget 0 2).mp (by decide +kernel), (hget 0 5).mp (by decide +kernel), fun h => ?_,
    ⟨hzero, v, hv, Except.ok.inj hones, hsorted⟩, ⟨hfour, hunite 0 hzero 4 hfour⟩,
    (hfails _).mp ⟨.defect .outOfRange, by decide +kernel⟩, (hensure 2 9).mpr (.inl ?_)⟩
  · have hno : m.get 1 5 = .ok false := by decide +kernel
    cases hno.symm.trans ((hget 1 5).mpr h)
  · exact .inl (by decide +kernel)

end BitMatrix

end YieldPlan
