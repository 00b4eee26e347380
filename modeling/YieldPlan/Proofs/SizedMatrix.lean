import Mathlib.Order.Basic
import YieldPlan.Graph.BitMatrix

/-! A matrix of a given size has so many rows, each with so many bits. Every update keeps that: it
fails, and the size shows when, or it gives a matrix of the size that it should have, with the bits
that it should have. -/

namespace YieldPlan

namespace BitVector

theorem mem_ones {v : BitVector} {c : Nat} : c ∈ v.ones ↔ v.bits.getD c false = true := by
  rw [ones, List.mem_filter, List.mem_range, and_iff_right_iff_imp]
  intro hc
  by_contra hle
  rw [Array.getD_eq_getD_getElem?, Array.getElem?_eq_none (Nat.le_of_not_lt hle)] at hc
  cases hc

theorem pairwise_ones (v : BitVector) : v.ones.Pairwise (· < ·) :=
  List.pairwise_lt_range.filter _

end BitVector

namespace BitMatrix

def bit (m : BitMatrix) (r c : Nat) : Bool := (m.rows[r]?.getD {}).bits.getD c false

/-- The matrix has that many rows, each with that many bits. -/
structure Sized (m : BitMatrix) (rows cols : Nat) : Prop where
  height : m.rows.size = rows
  width : m.cols = cols
  row : ∀ (r : Nat) (v : BitVector), m.rows[r]? = some v → v.bits.size = cols

/-- There is room for a matrix of that size. -/
def Storable (rows cols : Nat) : Prop := rows ≤ maxRows ∧ (rows = 0 ∨ cols ≤ BitVector.maxSize)

instance (rows cols : Nat) : Decidable (Storable rows cols) :=
  inferInstanceAs (Decidable (_ ∧ _))

variable {m : BitMatrix} {rows cols : Nat}

theorem sized_empty : Sized {} 0 0 := ⟨rfl, rfl, by simp⟩

theorem bit_eq {r : Nat} {v : BitVector} (h : m.rows[r]? = some v) (c : Nat) :
    m.bit r c = v.bits.getD c false := by rw [bit, h]; rfl

theorem bit_of_none {r : Nat} (h : m.rows[r]? = none) (c : Nat) : m.bit r c = false := by
  simp [bit, h]

theorem Sized.row_none (h : m.Sized rows cols) {r : Nat} (hr : rows ≤ r) : m.rows[r]? = none :=
  Array.getElem?_eq_none (Nat.le_trans (Nat.le_of_eq h.height) hr)

theorem Sized.row_ok (h : m.Sized rows cols) {r : Nat} (hr : r < rows) :
    ∃ v, m.rows[r]? = some v ∧ m.row r = .ok v ∧ v.bits.size = cols := by
  have hlt : r < m.rows.size := h.height.symm ▸ hr
  have hrow : m.rows[r]? = some m.rows[r] := Array.getElem?_eq_getElem hlt
  exact ⟨_, hrow, by rw [BitMatrix.row, hrow]; rfl, h.row r _ hrow⟩

theorem Sized.row_fails (h : m.Sized rows cols) {r : Nat} (hr : rows ≤ r) :
    m.row r = .error (.defect .outOfRange) := by rw [BitMatrix.row, h.row_none hr]; rfl

theorem Sized.bit_of_le (h : m.Sized rows cols) {r c : Nat} (hc : cols ≤ c) :
    m.bit r c = false := by
  cases hr : m.rows[r]? with
  | none => exact bit_of_none hr c
  | some v =>
    rw [bit_eq hr, Array.getD_eq_getD_getElem?, Array.getElem?_eq_none (h.row r v hr ▸ hc)]
    rfl

theorem Sized.get_ok (h : m.Sized rows cols) {r c : Nat} (hr : r < rows) (hc : c < cols) :
    m.get r c = .ok (m.bit r c) := by
  obtain ⟨v, hv, hrow, hsize⟩ := h.row_ok hr
  have hvc : v.bits[c]? = some (v.bits.getD c false) := by
    rw [Array.getD_eq_getD_getElem?, Array.getElem?_eq_getElem (hsize.symm ▸ hc)]
    rfl
  rw [get, hrow, bit_eq hv, Checked.ok_bind, BitVector.get, hvc]

theorem Sized.get_fails (h : m.Sized rows cols) {r c : Nat} (hrc : ¬ (r < rows ∧ c < cols)) :
    ∃ e, m.get r c = .error e := by
  by_cases hr : r < rows
  · obtain ⟨v, -, hrow, hsize⟩ := h.row_ok hr
    have hc : v.bits.size ≤ c := hsize ▸ Nat.le_of_not_lt fun hc => hrc ⟨hr, hc⟩
    rw [get, hrow, Checked.ok_bind, BitVector.get, Array.getElem?_eq_none hc]
    exact ⟨_, rfl⟩
  · rw [get, h.row_fails (Nat.le_of_not_lt hr)]
    exact ⟨_, rfl⟩

theorem Sized.setRow (h : m.Sized rows cols) {r : Nat} {v : BitVector} (hr : r < rows)
    (hv : v.bits.size = cols) :
    Sized { m with rows := m.rows.setIfInBounds r v } rows cols ∧
      ∀ r' c, bit { m with rows := m.rows.setIfInBounds r v } r' c =
        if r' = r then v.bits.getD c false else m.bit r' c := by
  have hlt : r < m.rows.size := h.height.symm ▸ hr
  refine ⟨⟨by simpa using h.height, h.width, fun r' w hw => ?_⟩, fun r' c => ?_⟩
  · rw [Array.getElem?_setIfInBounds] at hw
    split at hw
    · exact Option.some.inj hw ▸ hv
    · exact h.row r' w hw
  · by_cases hrr : r = r'
    · subst hrr
      simp [bit, hlt]
    · simp [bit, hrr, Ne.symm hrr]

theorem Sized.set_ok (h : m.Sized rows cols) {r c : Nat} (hr : r < rows) (hc : c < cols) :
    ∃ m', m.set r c = .ok m' ∧ m'.Sized rows cols ∧
      ∀ r' c', m'.bit r' c' = true ↔ m.bit r' c' = true ∨ r' = r ∧ c' = c := by
  obtain ⟨v, hv, hrow, hsize⟩ := h.row_ok hr
  obtain ⟨hsized, hbit⟩ := h.setRow (v := ⟨v.bits.setIfInBounds c true⟩) hr (by simpa using hsize)
  refine ⟨_, ?_, hsized, fun r' c' => ?_⟩
  · rw [set, hrow, Checked.ok_bind, BitVector.set, if_pos (by rwa [BitVector.size, hsize])]
    rfl
  · rw [hbit]
    split
    · next hrr =>
      subst hrr
      rw [bit_eq hv, Array.getD_eq_getD_getElem?, Array.getElem?_setIfInBounds]
      by_cases hcc : c = c'
      · subst hcc
        simp [hsize, hc]
      · simp [hcc, Ne.symm hcc]
    · next hrr => simp [hrr]

theorem Sized.set_fails (h : m.Sized rows cols) {r c : Nat} (hrc : ¬ (r < rows ∧ c < cols)) :
    ∃ e, m.set r c = .error e := by
  by_cases hr : r < rows
  · obtain ⟨v, -, hrow, hsize⟩ := h.row_ok hr
    have hc : ¬ c < v.size := by
      rw [BitVector.size, hsize]
      exact fun hc => hrc ⟨hr, hc⟩
    rw [set, hrow, Checked.ok_bind, BitVector.set, if_neg hc]
    exact ⟨_, rfl⟩
  · rw [set, h.row_fails (Nat.le_of_not_lt hr)]
    exact ⟨_, rfl⟩

theorem Sized.unite_ok (h : m.Sized rows cols) {dst src : Nat}
    (hrows : dst = src ∨ dst < rows ∧ src < rows) :
    ∃ m', m.unite dst src = .ok m' ∧ m'.Sized rows cols ∧
      ∀ r c, m'.bit r c = true ↔ m.bit r c = true ∨ r = dst ∧ m.bit src c = true := by
  rw [unite]
  by_cases he : dst = src
  · refine ⟨m, if_pos he, h, fun r c => ?_⟩
    subst he
    exact ⟨.inl, fun hc => hc.elim id fun ⟨hr, hb⟩ => hr ▸ hb⟩
  · obtain ⟨hd, hs⟩ := hrows.resolve_left he
    obtain ⟨v, hv, hrow, hsize⟩ := h.row_ok hd
    obtain ⟨w, hw, hrow', hsize'⟩ := h.row_ok hs
    obtain ⟨hsized, hbit⟩ := h.setRow (v := ⟨v.bits.mapIdx fun i b => b || w.bits.getD i false⟩) hd
      (by simpa using hsize)
    refine ⟨_, ?_, hsized, fun r c => ?_⟩
    · rw [if_neg he, hrow, Checked.ok_bind, hrow', Checked.ok_bind, BitVector.union,
        if_neg (by simp [BitVector.size, hsize, hsize'])]
      rfl
    · rw [hbit]
      split
      · next hr =>
        subst hr
        rw [bit_eq hv, bit_eq hw, Array.getD_eq_getD_getElem?, Array.getElem?_mapIdx]
        by_cases hc : c < v.bits.size
        · simp [hc]
        · simp [hc, Array.getElem?_eq_none (show w.bits.size ≤ c by omega)]
      · next hr => simp [hr]

theorem Sized.unite_fails (h : m.Sized rows cols) {dst src : Nat}
    (hrows : ¬ (dst = src ∨ dst < rows ∧ src < rows)) :
    m.unite dst src = .error (.defect .outOfRange) := by
  obtain ⟨hne, hrows⟩ := not_or.mp hrows
  rw [unite, if_neg hne]
  by_cases hd : dst < rows
  · obtain ⟨v, -, hrow, -⟩ := h.row_ok hd
    rw [hrow, Checked.ok_bind, h.row_fails (Nat.le_of_not_lt fun hs => hrows ⟨hd, hs⟩)]
    rfl
  · rw [h.row_fails (Nat.le_of_not_lt hd)]
    rfl

theorem ensure_row {v : BitVector} {len : Nat} (hle : v.bits.size ≤ len)
    (hmax : len ≤ BitVector.maxSize) :
    ∃ w, v.ensure len = .ok w ∧ w.bits.size = len ∧
      ∀ c, w.bits.getD c false = v.bits.getD c false := by
  refine ⟨⟨v.bits ++ Array.replicate (len - v.size) false⟩, ?_, ?_, fun c => ?_⟩
  · rw [BitVector.ensure, BitVector.size, if_neg (Nat.not_lt.mpr hle), if_neg (Nat.not_lt.mpr hmax)]
  · simp only [Array.size_append, Array.size_replicate, BitVector.size]
    omega
  · simp only [Array.getD_eq_getD_getElem?, Array.getElem?_append]
    split
    · rfl
    · next hc =>
      rw [Array.getElem?_eq_none (Nat.le_of_not_lt hc), Array.getElem?_replicate]
      split <;> rfl

theorem ensure_row_fails {v : BitVector} {len : Nat} (hle : v.bits.size ≤ len)
    (hmax : BitVector.maxSize < len) : v.ensure len = .error (.defect .outOfRange) := by
  rw [BitVector.ensure, BitVector.size, if_neg (Nat.not_lt.mpr hle), if_pos hmax]

theorem ensure_rows (len : Nat) (vs : List BitVector)
    (h : ∀ v ∈ vs, v.bits.size ≤ len ∧ len ≤ BitVector.maxSize) :
    ∃ ws, vs.mapM (fun v => v.ensure len) = .ok ws ∧ ws.length = vs.length ∧
      ∀ (r : Nat) (w : BitVector), ws[r]? = some w → ∃ v, vs[r]? = some v ∧ w.bits.size = len ∧
        ∀ c, w.bits.getD c false = v.bits.getD c false := by
  induction vs with
  | nil => exact ⟨[], rfl, rfl, by simp⟩
  | cons v vs ih =>
    obtain ⟨hle, hmax⟩ := h v List.mem_cons_self
    obtain ⟨w, hw, hwl⟩ := ensure_row hle hmax
    obtain ⟨ws, hws, hlen, hall⟩ := ih fun u hu => h u (List.mem_cons_of_mem _ hu)
    refine ⟨w :: ws, ?_, by simp [hlen], fun r x hx => ?_⟩
    · rw [List.mapM_cons, hw, hws]
      rfl
    · cases r with
      | zero => exact ⟨v, rfl, Option.some.inj hx ▸ hwl⟩
      | succ r => exact hall r x hx

def blank (cols : Nat) : BitVector := ⟨Array.replicate cols false⟩

theorem bits_blank (cols c : Nat) : (blank cols).bits.getD c false = false := by
  rw [blank, Array.getD_eq_getD_getElem?, Array.getElem?_replicate]
  split <;> rfl

theorem ofSize_ok {len : Nat} (hmax : len ≤ BitVector.maxSize) :
    BitVector.ofSize len = .ok (blank len) := by
  have hle : ¬ len < BitVector.size {} := Nat.not_lt_zero len
  rw [BitVector.ofSize, BitVector.ensure, if_neg hle, if_neg (Nat.not_lt.mpr hmax)]
  simp [BitVector.size, blank]

theorem Sized.grown (h : m.Sized rows cols) {rows' cols' : Nat} {ws : List BitVector}
    (hr : rows ≤ rows') (hlength : ws.length = rows)
    (hws : ∀ (r : Nat) (w : BitVector), ws[r]? = some w → ∃ v, m.rows[r]? = some v ∧
      w.bits.size = cols' ∧ ∀ c, w.bits.getD c false = v.bits.getD c false) :
    Sized ⟨ws.toArray ++ Array.replicate (rows' - rows) (blank cols'), cols'⟩ rows' cols' ∧
      ∀ r c, bit ⟨ws.toArray ++ Array.replicate (rows' - rows) (blank cols'), cols'⟩ r c =
        m.bit r c := by
  have hsize : (ws.toArray ++ Array.replicate (rows' - rows) (blank cols')).size = rows' := by
    simp only [Array.size_append, List.size_toArray, Array.size_replicate, hlength]
    omega
  have hrow : ∀ r v, (ws.toArray ++ Array.replicate (rows' - rows) (blank cols'))[r]? = some v →
      (∃ u, m.rows[r]? = some u ∧ v.bits.size = cols' ∧
        ∀ c, v.bits.getD c false = u.bits.getD c false) ∨ rows ≤ r ∧ v = blank cols' := by
    intro r v hv
    rw [Array.getElem?_append] at hv
    split at hv
    · exact .inl (hws r v (by simpa using hv))
    · next hle =>
      rw [Array.getElem?_replicate] at hv
      split at hv
      · exact .inr ⟨by simpa [hlength] using hle, (Option.some.inj hv).symm⟩
      · cases hv
  refine ⟨⟨hsize, rfl, fun r v hv => ?_⟩, fun r c => ?_⟩
  · rcases hrow r v hv with ⟨-, -, hv, -⟩ | ⟨-, rfl⟩
    · exact hv
    · exact Array.size_replicate
  · by_cases hlt : r < rows'
    · have hv := Array.getElem?_eq_getElem (hsize.symm ▸ hlt)
      rw [bit_eq hv]
      rcases hrow r _ hv with ⟨u, hu, -, hbits⟩ | ⟨hle, hnew⟩
      · rw [hbits, bit_eq hu]
      · rw [hnew, bits_blank, bit_of_none (h.row_none hle)]
    · have hle : rows' ≤ r := Nat.le_of_not_lt hlt
      rw [bit_of_none (h.row_none (Nat.le_trans hr hle)), bit_of_none]
      exact Array.getElem?_eq_none (Nat.le_trans (Nat.le_of_eq hsize) hle)

theorem Sized.ensure_ok (h : m.Sized rows cols) {rows' cols' : Nat} (hr : rows ≤ rows')
    (hc : cols ≤ cols') (hfits : Storable rows' cols') :
    ∃ m', m.ensure rows' cols' = .ok m' ∧ m'.Sized rows' cols' ∧
      ∀ r c, m'.bit r c = m.bit r c := by
  have hmax : rows' ≠ 0 → cols' ≤ BitVector.maxSize := hfits.2.resolve_left
  obtain ⟨ws, hws, hlength, hall⟩ := ensure_rows cols' m.rows.toList fun v hv => by
    obtain ⟨r, hrv⟩ := List.getElem?_of_mem hv
    have hrv : m.rows[r]? = some v := by simpa using hrv
    have hlt : r < rows := h.height ▸ (Array.getElem?_eq_some_iff.mp hrv).1
    exact ⟨h.row r v hrv ▸ hc, hmax (by omega)⟩
  have hold : ∀ (r : Nat) (w : BitVector), ws[r]? = some w → ∃ v, m.rows[r]? = some v ∧
      w.bits.size = cols' ∧ ∀ c, w.bits.getD c false = v.bits.getD c false := by
    simpa using hall
  obtain ⟨hsized, hbit⟩ := h.grown hr (hlength.trans h.height) hold
  refine ⟨_, ?_, hsized, hbit⟩
  rw [ensure, if_neg (by simp [h.height, h.width, hr, hc]), if_neg (Nat.not_lt.mpr hfits.1),
    Array.mapM_eq_mapM_toList, hws, h.height]
  by_cases he : rows' = rows
  · rw [Nat.sub_eq_zero_of_le (Nat.le_of_eq he)]
    show (if rows' = rows then _ else _) = _
    rw [if_pos he]
    exact congrArg (fun rows => Except.ok (⟨rows, cols'⟩ : BitMatrix)) (by simp)
  · show (if rows' = rows then _ else BitVector.ofSize cols' >>= fun v => _) = _
    rw [if_neg he, ofSize_ok (hmax (by omega))]
    rfl

theorem Sized.ensure_shrinks (h : m.Sized rows cols) {rows' cols' : Nat}
    (hlt : rows' < rows ∨ cols' < cols) :
    m.ensure rows' cols' = .error (.defect (.shrinkMatrix rows cols rows' cols')) := by
  rw [ensure, if_pos (by simpa [h.height, h.width] using hlt), h.height, h.width]
  rfl

theorem Sized.ensure_overflows (h : m.Sized rows cols) {rows' cols' : Nat} (hr : rows ≤ rows')
    (hc : cols ≤ cols') (hfits : ¬ Storable rows' cols') :
    m.ensure rows' cols' = .error (.defect .outOfRange) := by
  rw [ensure, if_neg (by simp [h.height, h.width, hr, hc])]
  by_cases hmax : rows' ≤ maxRows
  · obtain ⟨hpos, hlong⟩ := not_or.mp fun hor => hfits ⟨hmax, hor⟩
    have hlong : BitVector.maxSize < cols' := Nat.lt_of_not_le hlong
    rw [if_neg (Nat.not_lt.mpr hmax), Array.mapM_eq_mapM_toList]
    cases hrows : m.rows.toList with
    | nil =>
      have hzero : m.rows.size = 0 := by simpa using congrArg List.length hrows
      show (if rows' = m.rows.size then _ else BitVector.ofSize cols' >>= fun v => _) = _
      rw [hzero, if_neg hpos, BitVector.ofSize, ensure_row_fails (Nat.zero_le _) hlong]
      rfl
    | cons v vs =>
      have hv : m.rows[0]? = some v := by
        rw [← Array.getElem?_toList, hrows]
        rfl
      rw [List.mapM_cons, ensure_row_fails (h.row 0 v hv ▸ hc) hlong]
      rfl
  · rw [if_pos (Nat.lt_of_not_le hmax)]
    rfl

end BitMatrix

end YieldPlan
