import YieldPlan.BlockStart
import Mathlib.Data.List.Sort

/-! What one filing does to the request of each thread at each operation. Requests never disappear
and never get weaker, and the strongest kind keeps the placement with which it came. A request that
was filed once is absorbed from then on: filing it again changes nothing. -/

namespace YieldPlan

theorem insertSorted_eq {α : Type} (le : α → α → Bool) (a : α) (l : List α) :
    insertSorted le a l = l.orderedInsert (fun x y => le x y = true) a := by
  induction l with
  | nil => rfl
  | cons b l ih => rw [insertSorted, List.orderedInsert, ih]

theorem sortBy_eq {α : Type} (le : α → α → Bool) (l : List α) :
    sortBy le l = l.insertionSort (fun x y => le x y = true) := by
  induction l with
  | nil => rfl
  | cons a l ih =>
    have hstep : sortBy le (a :: l) = (sortBy le l).orderedInsert (fun x y => le x y = true) a :=
      insertSorted_eq le a _
    rw [hstep, ih]
    rfl

section SortUnique

variable {α : Type} [DecidableEq α] {le : α → α → Bool} {R : α → α → Prop}

structure Orders (le : α → α → Bool) (R : α → α → Prop) : Prop where
  trans : ∀ {a b c}, R a b → R b c → R a c
  of_le : ∀ {a b}, a ≠ b → le a b = true → R a b
  of_not_le : ∀ {a b}, le a b = false → R b a

theorem pairwise_insertUnique (horder : Orders le R) {l : List α} (h : l.Pairwise R) (a : α) :
    (insertUnique le a l).Pairwise R := by
  induction l with
  | nil => simp [insertUnique]
  | cons b l ih =>
    obtain ⟨hb, hl⟩ := List.pairwise_cons.mp h
    unfold insertUnique
    split
    · exact h
    · next hne =>
      split
      · next hle =>
        have hlt : R a b := horder.of_le hne hle
        refine List.pairwise_cons.mpr ⟨?_, h⟩
        intro x hx
        rcases List.mem_cons.mp hx with rfl | hx
        · exact hlt
        · exact horder.trans hlt (hb x hx)
      · next hle =>
        have hlt : R b a := horder.of_not_le (by simpa using hle)
        refine List.pairwise_cons.mpr ⟨?_, ih hl⟩
        intro x hx
        rcases (mem_insertUnique _ a x l).mp hx with rfl | hx
        · exact hlt
        · exact hb x hx

theorem pairwise_sortUnique (horder : Orders le R) (l : List α) : (sortUnique le l).Pairwise R := by
  induction l with
  | nil => exact .nil
  | cons a l ih => exact pairwise_insertUnique horder ih a

end SortUnique

theorem pairwise_sortNats (l : List Nat) : (sortNats l).Pairwise (· < ·) := by
  apply pairwise_sortUnique
  constructor
  · intro a b c hab hbc
    omega
  · intro a b hne hle
    have : a ≤ b := by simpa using hle
    omega
  · intro a b hle
    have : ¬ a ≤ b := by simpa using hle
    omega

theorem sortNats_congr {l l' : List Nat} (h : ∀ x, x ∈ l ↔ x ∈ l') : sortNats l = sortNats l' := by
  apply (pairwise_sortNats l).eq_of_mem_iff (pairwise_sortNats l')
  intro x
  simpa [sortNats] using h x

@[simp] theorem mem_sortNats {x : Nat} {l : List Nat} : x ∈ sortNats l ↔ x ∈ l :=
  mem_sortUnique _ x l

namespace BlockStarts

variable {s : BlockStarts} {t u : ThreadId} {o x : OpId} {kind : BlockKind} {placement : Placement}
  {sources : List OpId}

theorem ofThread_put (s : BlockStarts) (t u : ThreadId) (l : List BlockStart) :
    (⟨s.threads.put t l⟩ : BlockStarts).ofThread u = if u = t then l else s.ofThread u := by
  unfold ofThread
  rw [Table.get?_put]
  split <;> simp

theorem op_of_get? {r : BlockStart} (h : s.get? t o = some r) : r.op = o := by
  simpa using List.find?_some h

theorem op_merge (old : BlockStart) (kind : BlockKind) (placement : Placement)
    (sources : List OpId) : (merge old kind placement sources).1.op = old.op := by
  unfold merge
  split
  · rfl
  · split <;> rfl

theorem find?_replace (l : List BlockStart) {o : OpId} {new : BlockStart} (hnew : new.op = o)
    (x : OpId) :
    (l.map fun r => if r.op = o then new else r).find? (fun r => r.op = x) =
      if x = o then (l.find? fun r => r.op = o).map fun _ => new
      else l.find? fun r => r.op = x := by
  induction l with
  | nil => simp
  | cons r l ih =>
    by_cases hr : r.op = o
    · by_cases hx : x = o
      · simp [hr, hx, hnew]
      · have : ¬ o = x := fun h => hx h.symm
        simp only [List.map_cons, hr, ↓reduceIte, List.find?_cons, hnew, this, decide_false,
          hx] at ih ⊢
        exact ih
    · by_cases hx : x = o
      · subst hx
        simp only [List.map_cons, hr, ↓reduceIte, List.find?_cons, decide_false] at ih ⊢
        exact ih
      · simp only [List.map_cons, hr, ↓reduceIte, List.find?_cons, hx] at ih ⊢
        split
        · rfl
        · exact ih

def after (s : BlockStarts) (t : ThreadId) (o : OpId) (kind : BlockKind) (placement : Placement)
    (sources : List OpId) : BlockStart :=
  match s.get? t o with
  | some old => (merge old kind placement sources).1
  | none => { op := o, kind, id := (s.ofThread t).length, placement, sources }

theorem get?_file (s : BlockStarts) (t u : ThreadId) (o x : OpId) (kind : BlockKind)
    (placement : Placement) (sources : List OpId) :
    (s.file t o kind placement sources).1.get? u x =
      if u = t ∧ x = o then some (s.after t o kind placement sources) else s.get? u x := by
  unfold file after
  cases hold : s.get? t o with
  | some old =>
    have hop : (merge old kind placement sources).1.op = o :=
      (op_merge old kind placement sources).trans (op_of_get? hold)
    simp only []
    rw [get?, ofThread_put]
    by_cases hu : u = t
    · subst hu
      rw [if_pos rfl, find?_replace _ hop]
      by_cases hx : x = o
      · subst hx
        have hfind : (s.ofThread u).find? (fun r => r.op = x) = some old := hold
        simp [hfind]
      · simp [hx, get?]
    · simp [hu, get?]
  | none =>
    simp only []
    rw [get?, ofThread_put]
    by_cases hu : u = t
    · subst hu
      rw [if_pos rfl, List.find?_append]
      by_cases hx : x = o
      · subst hx
        have hfind : (s.ofThread u).find? (fun r => r.op = x) = none := hold
        simp [hfind]
      · have : ¬ o = x := fun h => hx h.symm
        simp [hx, this, get?]
    · simp [hu, get?]

theorem merge_static_after {old : BlockStart} (ho : old.kind = .static → old.placement = .after)
    (hk : kind = .static → placement = .after) :
    (merge old kind placement sources).1.kind = .static →
      (merge old kind placement sources).1.placement = .after := by
  unfold merge
  dsimp only
  split
  · exact hk
  · split
    · exact ho
    · exact ho

theorem merge_strength (old : BlockStart) (kind : BlockKind) (placement : Placement)
    (sources : List OpId) :
    kind.strength ≤ (merge old kind placement sources).1.kind.strength ∧
      old.kind.strength ≤ (merge old kind placement sources).1.kind.strength := by
  unfold merge
  split
  · next h => exact ⟨Nat.le_refl _, Nat.le_of_lt h⟩
  · next h =>
    split
    · next hk => subst hk; exact ⟨Nat.le_refl _, Nat.le_refl _⟩
    · exact ⟨Nat.not_lt.mp h, Nat.le_refl _⟩

theorem after_strength (s : BlockStarts) (t : ThreadId) (o : OpId) (kind : BlockKind)
    (placement : Placement) (sources : List OpId) :
    kind.strength ≤ (s.after t o kind placement sources).kind.strength := by
  unfold after
  cases s.get? t o with
  | some old => exact (merge_strength old kind placement sources).1
  | none => exact Nat.le_refl _

/-- Every request of the first state is in the second, at least as strong. -/
def Grows (s s' : BlockStarts) : Prop :=
  ∀ u x r, s.get? u x = some r → ∃ r', s'.get? u x = some r' ∧ r.kind.strength ≤ r'.kind.strength

theorem Grows.refl (s : BlockStarts) : s.Grows s := fun _ _ r h => ⟨r, h, Nat.le_refl _⟩

theorem Grows.trans {a b c : BlockStarts} (h : a.Grows b) (k : b.Grows c) : a.Grows c := by
  intro u x r hr
  obtain ⟨r₁, h₁, hle₁⟩ := h u x r hr
  obtain ⟨r₂, h₂, hle₂⟩ := k u x r₁ h₁
  exact ⟨r₂, h₂, Nat.le_trans hle₁ hle₂⟩

theorem file_grows (s : BlockStarts) (t : ThreadId) (o : OpId) (kind : BlockKind)
    (placement : Placement) (sources : List OpId) :
    s.Grows (s.file t o kind placement sources).1 := by
  intro u x r hr
  rw [get?_file]
  by_cases h : u = t ∧ x = o
  · obtain ⟨rfl, rfl⟩ := h
    refine ⟨_, if_pos ⟨rfl, rfl⟩, ?_⟩
    unfold after
    rw [hr]
    exact (merge_strength r kind placement sources).2
  · exact ⟨r, by rw [if_neg h]; exact hr, Nat.le_refl _⟩

def StaticAfter (s : BlockStarts) : Prop :=
  ∀ u x r, s.get? u x = some r → r.kind = .static → r.placement = .after

theorem StaticAfter.file (h : s.StaticAfter) (hk : kind = .static → placement = .after) :
    (s.file t o kind placement sources).1.StaticAfter := by
  intro u x r hr
  rw [get?_file] at hr
  split at hr
  · cases hr
    unfold BlockStarts.after
    cases hold : s.get? t o with
    | none => exact hk
    | some old => exact merge_static_after (h t o old hold) hk
  · exact h u x r hr

/-- A further request of this kind with these sources leaves `r` as it is. -/
def Covers (r : BlockStart) (kind : BlockKind) (sources : List OpId) : Prop :=
  ∀ placement, merge r kind placement sources = (r, .dropped)

theorem covers_iff {r : BlockStart} : Covers r kind sources ↔
    kind.strength < r.kind.strength ∨
      r.kind = kind ∧ sortNats (r.sources ++ sources) = r.sources := by
  unfold Covers merge
  constructor
  · intro h
    have h := h .before
    dsimp only at h
    split at h
    · simp at h
    · next hlt =>
      split at h
      · next heq =>
        have hr := congrArg (fun x => x.1.sources) h
        exact .inr ⟨heq.symm, hr⟩
      · next hne =>
        have hdiff : kind.strength ≠ r.kind.strength := fun he =>
          hne (BlockKind.strength_injective he)
        exact .inl (by omega)
  · rintro (h | ⟨rfl, h⟩) placement
    · have hne : kind ≠ r.kind := fun he => by simp [he] at h
      simp [hne, Nat.le_of_lt h]
    · simp [h]

theorem covers_merge (old : BlockStart) (kind : BlockKind) (placement : Placement)
    (sources : List OpId) : Covers (merge old kind placement sources).1 kind sources := by
  have hunited : sortNats (sortNats (old.sources ++ sources) ++ sources) =
      sortNats (old.sources ++ sources) := by
    apply sortNats_congr
    intro x
    simp only [List.mem_append, mem_sortNats]
    tauto
  rw [covers_iff]
  unfold merge
  dsimp only
  split
  · exact .inr ⟨rfl, hunited⟩
  · next hlt =>
    split
    · next heq => exact .inr ⟨heq.symm, hunited⟩
    · next hne =>
      have hdiff : kind.strength ≠ old.kind.strength := fun he =>
        hne (BlockKind.strength_injective he)
      exact .inl (Nat.lt_of_le_of_ne (Nat.not_lt.mp hlt) hdiff)

theorem Covers.merge {r : BlockStart} (h : Covers r kind sources) (kind' : BlockKind)
    (placement : Placement) (sources' : List OpId) :
    Covers (merge r kind' placement sources').1 kind sources := by
  rw [covers_iff] at h ⊢
  have hge := (merge_strength r kind' placement sources').2
  rcases h with h | ⟨rfl, h⟩
  · exact .inl (Nat.lt_of_lt_of_le h hge)
  unfold BlockStarts.merge
  dsimp only
  split
  · next hlt => exact .inl hlt
  · split
    · refine .inr ⟨rfl, ?_⟩
      have hmem : ∀ x ∈ sources, x ∈ r.sources := by
        intro x hx
        rw [← h]
        exact mem_sortNats.mpr (List.mem_append_right _ hx)
      apply sortNats_congr
      intro x
      simp only [List.mem_append, mem_sortNats]
      constructor
      · rintro (hx | hx)
        · exact hx
        · exact .inl (hmem x hx)
      · exact .inl
    · exact .inr ⟨rfl, h⟩

structure Only (s : BlockStarts) (t : ThreadId) (o : OpId) (r : BlockStart) : Prop where
  found : s.get? t o = some r
  unique : ∀ r' ∈ s.ofThread t, r'.op = o → r' = r

theorem op_after (s : BlockStarts) (t : ThreadId) (o : OpId) (kind : BlockKind)
    (placement : Placement) (sources : List OpId) :
    (s.after t o kind placement sources).op = o := by
  unfold after
  cases hold : s.get? t o with
  | some old => exact (op_merge old kind placement sources).trans (op_of_get? hold)
  | none => rfl

theorem mem_ofThread_file {r : BlockStart}
    (h : r ∈ (s.file t o kind placement sources).1.ofThread u) :
    (u = t ∧ r = s.after t o kind placement sources) ∨
      r ∈ s.ofThread u ∧ ¬ (u = t ∧ r.op = o) := by
  unfold file at h
  cases hold : s.get? t o with
  | some old =>
    simp only [hold, ofThread_put] at h
    by_cases hu : u = t
    · subst hu
      rw [if_pos rfl] at h
      obtain ⟨r', hr', he⟩ := List.mem_map.mp h
      by_cases hop : r'.op = o
      · rw [if_pos hop] at he
        exact .inl ⟨rfl, by simp [after, hold, ← he]⟩
      · rw [if_neg hop] at he
        subst he
        exact .inr ⟨hr', fun hc => hop hc.2⟩
    · rw [if_neg hu] at h
      exact .inr ⟨h, fun hc => hu hc.1⟩
  | none =>
    simp only [hold, ofThread_put] at h
    by_cases hu : u = t
    · subst hu
      rw [if_pos rfl] at h
      rcases List.mem_append.mp h with h | h
      · refine .inr ⟨h, fun hc => ?_⟩
        have hnone := List.find?_eq_none.mp hold r h
        simp [hc.2] at hnone
      · obtain rfl := List.mem_singleton.mp h
        exact .inl ⟨rfl, by simp [after, hold]⟩
    · rw [if_neg hu] at h
      exact .inr ⟨h, fun hc => hu hc.1⟩

theorem kind_after : (s.after t o kind placement sources).kind = kind ∨
    ∃ old, s.get? t o = some old ∧ (s.after t o kind placement sources).kind = old.kind := by
  unfold after
  cases s.get? t o with
  | none => exact .inl rfl
  | some old =>
    by_cases hlt : old.kind.strength < kind.strength
    · left
      simp [merge, hlt]
    · refine .inr ⟨old, rfl, ?_⟩
      simp only [merge, hlt, ↓reduceIte]
      split <;> rfl

theorem id_merge (old : BlockStart) (kind : BlockKind) (placement : Placement)
    (sources : List OpId) : (merge old kind placement sources).1.id = old.id := by
  unfold merge
  split
  · rfl
  · split <;> rfl

theorem id_after :
    (s.after t o kind placement sources).id = (s.ofThread t).length ∨
      ∃ old, s.get? t o = some old ∧ (s.after t o kind placement sources).id = old.id := by
  unfold after
  cases s.get? t o with
  | none => exact .inl rfl
  | some old => exact .inr ⟨old, rfl, id_merge old kind placement sources⟩

theorem forall_ofThread_file {P : OpId → BlockKind → Prop} (h : ∀ r ∈ s.ofThread t, P r.op r.kind)
    (hnew : P o kind) : ∀ r ∈ (s.file t o kind placement sources).1.ofThread t, P r.op r.kind := by
  intro r hr
  rcases mem_ofThread_file hr with ⟨-, rfl⟩ | ⟨hr, -⟩
  · rw [op_after]
    rcases kind_after with hk | ⟨old, hold, hk⟩
    · rw [hk]
      exact hnew
    · rw [hk, ← op_of_get? hold]
      exact h old (List.mem_of_find?_eq_some hold)
  · exact h r hr

theorem only_after (s : BlockStarts) (t : ThreadId) (o : OpId) (kind : BlockKind)
    (placement : Placement) (sources : List OpId) :
    (s.file t o kind placement sources).1.Only t o (s.after t o kind placement sources) where
  found := by rw [get?_file, if_pos ⟨rfl, rfl⟩]
  unique r hr hop := by
    rcases mem_ofThread_file hr with ⟨-, rfl⟩ | ⟨-, hne⟩
    · rfl
    · exact absurd ⟨rfl, hop⟩ hne

theorem Only.file {r : BlockStart} (h : s.Only u x r) (hne : ¬ (u = t ∧ x = o)) :
    (s.file t o kind placement sources).1.Only u x r where
  found := by rw [get?_file, if_neg hne, h.found]
  unique r' hr hop := by
    rcases mem_ofThread_file hr with ⟨rfl, rfl⟩ | ⟨hr, -⟩
    · exact absurd ⟨rfl, hop.symm.trans (op_after s u o kind placement sources)⟩ hne
    · exact h.unique r' hr hop

/-- A further filing at the operation changes nothing. -/
def Absorbs (s : BlockStarts) (t : ThreadId) (o : OpId) (kind : BlockKind)
    (sources : List OpId) : Prop :=
  ∃ r, s.Only t o r ∧ Covers r kind sources

theorem file_absorbs (s : BlockStarts) (t : ThreadId) (o : OpId) (kind : BlockKind)
    (placement : Placement) (hsorted : sortNats sources = sources) :
    (s.file t o kind placement sources).1.Absorbs t o kind sources := by
  refine ⟨_, only_after s t o kind placement sources, ?_⟩
  unfold after
  cases s.get? t o with
  | some old => exact covers_merge old kind placement sources
  | none =>
    refine covers_iff.mpr (.inr ⟨rfl, ?_⟩)
    refine Eq.trans ?_ hsorted
    apply sortNats_congr
    simp

theorem Absorbs.file {kind' : BlockKind} {sources' : List OpId}
    (h : s.Absorbs u x kind' sources') :
    (s.file t o kind placement sources).1.Absorbs u x kind' sources' := by
  obtain ⟨r, hr, hcovers⟩ := h
  by_cases heq : u = t ∧ x = o
  · obtain ⟨rfl, rfl⟩ := heq
    refine ⟨_, only_after s u x kind placement sources, ?_⟩
    unfold after
    rw [hr.found]
    exact hcovers.merge kind placement sources
  · exact ⟨r, hr.file heq, hcovers⟩

theorem Absorbs.file_eq (h : s.Absorbs t o kind sources) (placement : Placement) :
    (s.file t o kind placement sources).2 = .dropped ∧
      ∀ u, (s.file t o kind placement sources).1.ofThread u = s.ofThread u := by
  obtain ⟨r, hr, hcovers⟩ := h
  unfold BlockStarts.file
  simp only [hr.found, hcovers placement, true_and]
  intro u
  rw [ofThread_put]
  split
  · next hu =>
    subst hu
    conv_rhs => rw [← List.map_id (s.ofThread u)]
    apply List.map_congr_left
    intro r' hr'
    split
    · next hop => exact (hr.unique r' hr' hop).symm
    · rfl
  · rfl

theorem Absorbs.congr {s' : BlockStarts} (h : s.Absorbs t o kind sources)
    (hs : ∀ u, s'.ofThread u = s.ofThread u) : s'.Absorbs t o kind sources := by
  obtain ⟨r, hr, hcovers⟩ := h
  refine ⟨r, ⟨?_, ?_⟩, hcovers⟩
  · rw [get?, hs]
    exact hr.found
  · intro r' hr' hop
    exact hr.unique r' (hs t ▸ hr') hop

end BlockStarts

end YieldPlan
