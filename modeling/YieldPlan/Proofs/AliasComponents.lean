import YieldPlan.Proofs.OwnershipOutcome

/-! If it does not matter which of two operations is asked about the other, the alias sets of a
thread are the components of its memory operations: two of them are in one set exactly if a chain of
operations that may alias leads from one to the other. Merging keeps this, whatever the order of
insertion. -/

namespace YieldPlan

/-- A chain of members, each of which may alias the next. -/
def AliasChain (prog : Program) (mayAlias : AliasOracle) (member : OpId → Prop) :
    OpId → OpId → Prop :=
  Relation.ReflTransGen fun x y =>
    member x ∧ member y ∧ mayAlias (prog.op x) (prog.op y) = true

namespace AliasChain

variable {prog : Program} {mayAlias : AliasOracle} {member member' : OpId → Prop} {x y z : OpId}

theorem mono (h : AliasChain prog mayAlias member x y) (hle : ∀ o, member o → member' o) :
    AliasChain prog mayAlias member' x y := by
  apply Relation.ReflTransGen.mono _ _ _ h
  rintro a b ⟨ha, hb, halias⟩
  exact ⟨hle a ha, hle b hb, halias⟩

theorem symm (hsym : ∀ a b, mayAlias a b = mayAlias b a)
    (h : AliasChain prog mayAlias member x y) : AliasChain prog mayAlias member y x := by
  induction h with
  | refl => exact .refl
  | tail _ hstep ih =>
    obtain ⟨ha, hb, halias⟩ := hstep
    exact .head ⟨hb, ha, hsym _ _ ▸ halias⟩ ih

end AliasChain

namespace AliasSets

variable {prog : Program} {mayAlias : AliasOracle} {s : AliasSets} {o x y : OpId}

theorem meets_iff {set : List OpId} : meets prog mayAlias set o = true ↔
    ∃ m ∈ set, mayAlias (prog.op m) (prog.op o) = true := by
  simp [meets]

def merged (prog : Program) (mayAlias : AliasOracle) (s : AliasSets) (o : OpId) : List OpId :=
  sortBy (fun a b => a ≤ b) ((s.aliasing prog mayAlias o).flatten ++ [o])

theorem mem_merged : x ∈ s.merged prog mayAlias o ↔
    (∃ a ∈ s.sets, meets prog mayAlias a o = true ∧ x ∈ a) ∨ x = o := by
  simp [merged, aliasing, List.mem_flatten, and_assoc]

theorem insert_cases : s.insert prog mayAlias o = s ∨
    (prog.kind o).isMemory = true ∧ ¬ s.contains o = true ∧
      ∀ a, a ∈ (s.insert prog mayAlias o).sets ↔
        a ∈ s.sets ∧ ¬ meets prog mayAlias a o = true ∨ a = s.merged prog mayAlias o := by
  by_cases hskip : (!(prog.kind o).isMemory || s.contains o) = true
  · left
    rw [insert, if_pos hskip]
  · right
    have hfresh : (prog.kind o).isMemory = true ∧ ¬ s.contains o = true := by
      simpa using hskip
    refine ⟨hfresh.1, hfresh.2, fun a => ?_⟩
    rw [insert, if_neg hskip]
    simp [merged, aliasing]

/-- No two sets share or alias members, and the members of one set are chained. -/
structure Components (prog : Program) (mayAlias : AliasOracle) (s : AliasSets) : Prop where
  apart : ∀ a ∈ s.sets, ∀ b ∈ s.sets, ∀ x ∈ a, ∀ y ∈ b,
    x = y ∨ mayAlias (prog.op x) (prog.op y) = true → a = b
  linked : ∀ a ∈ s.sets, ∀ x ∈ a, ∀ y ∈ a,
    AliasChain prog mayAlias (fun o => s.contains o = true) x y

theorem components_empty : ({} : AliasSets).Components prog mayAlias where
  apart := by simp
  linked := by simp

namespace Components

theorem mem_of_chain (h : s.Components prog mayAlias) {set : List OpId} (hset : set ∈ s.sets)
    (hx : x ∈ set) (hchain : AliasChain prog mayAlias (fun o => s.contains o = true) x y) :
    y ∈ set := by
  induction hchain with
  | refl => exact hx
  | tail _ hstep ih =>
    obtain ⟨-, hy, halias⟩ := hstep
    obtain ⟨other, hother, hy⟩ := contains_iff.mp hy
    exact h.apart _ hset _ hother _ ih _ hy (.inr halias) ▸ hy

theorem mem_aliasing (h : s.Components prog mayAlias) :
    y ∈ (s.aliasing prog mayAlias o).flatten ↔ ∃ k, s.contains k = true ∧
      AliasChain prog mayAlias (fun o => s.contains o = true) k y ∧
        mayAlias (prog.op k) (prog.op o) = true := by
  simp only [aliasing, List.mem_flatten, List.mem_filter, meets_iff]
  constructor
  · rintro ⟨set, ⟨hset, k, hk, halias⟩, hy⟩
    exact ⟨k, contains_iff.mpr ⟨set, hset, hk⟩, h.linked set hset k hk y hy, halias⟩
  · rintro ⟨k, hk, hchain, halias⟩
    obtain ⟨set, hset, hk⟩ := contains_iff.mp hk
    exact ⟨set, ⟨hset, k, hk, halias⟩, h.mem_of_chain hset hk hchain⟩

theorem apart_merged (h : s.Components prog mayAlias) (hnew : ¬ s.contains o = true)
    {a : List OpId} (ha : a ∈ s.sets) (hno : ¬ meets prog mayAlias a o = true) (hx : x ∈ a)
    (hy : y ∈ s.merged prog mayAlias o) :
    ¬ (x = y ∨ mayAlias (prog.op x) (prog.op y) = true) := by
  intro htouch
  rcases mem_merged.mp hy with ⟨b, hb, hmeets, hy⟩ | rfl
  · exact hno (h.apart a ha b hb x hx y hy htouch ▸ hmeets)
  · rcases htouch with rfl | halias
    · exact hnew (contains_iff.mpr ⟨a, ha, hx⟩)
    · exact hno (meets_iff.mpr ⟨x, hx, halias⟩)

theorem chain_merged (h : s.Components prog mayAlias) (hmemory : (prog.kind o).isMemory = true)
    (hx : x ∈ s.merged prog mayAlias o) :
    AliasChain prog mayAlias (fun z => (s.insert prog mayAlias o).contains z = true) x o := by
  rcases mem_merged.mp hx with ⟨a, ha, hmeets, hx⟩ | rfl
  · obtain ⟨m, hm, halias⟩ := meets_iff.mp hmeets
    have hkept : ∀ z, s.contains z = true → (s.insert prog mayAlias o).contains z = true :=
      fun z hz => contains_insert.mpr (.inl hz)
    have hlast : (s.insert prog mayAlias o).contains m = true :=
      hkept m (contains_iff.mpr ⟨a, ha, hm⟩)
    have hself : (s.insert prog mayAlias o).contains o = true :=
      contains_insert.mpr (.inr ⟨rfl, hmemory⟩)
    exact ((h.linked a ha x hx m hm).mono hkept).tail ⟨hlast, hself, halias⟩
  · exact .refl

theorem insert (hsym : ∀ a b, mayAlias a b = mayAlias b a) (h : s.Components prog mayAlias)
    (o : OpId) : (s.insert prog mayAlias o).Components prog mayAlias := by
  have hcases : s.insert prog mayAlias o = s ∨ _ := insert_cases
  rcases hcases with hsame | ⟨hmemory, hnew, hsets⟩
  · rw [hsame]
    exact h
  constructor
  · intro a ha b hb x hx y hy htouch
    rcases (hsets a).mp ha with ⟨ha, hano⟩ | rfl
    · rcases (hsets b).mp hb with ⟨hb, -⟩ | rfl
      · exact h.apart a ha b hb x hx y hy htouch
      · exact absurd htouch (h.apart_merged hnew ha hano hx hy)
    · rcases (hsets b).mp hb with ⟨hb, hbno⟩ | rfl
      · have htouch' : y = x ∨ mayAlias (prog.op y) (prog.op x) = true :=
          htouch.imp Eq.symm fun halias => hsym _ _ ▸ halias
        exact absurd htouch' (h.apart_merged hnew hb hbno hy hx)
      · rfl
  · intro a ha x hx y hy
    rcases (hsets a).mp ha with ⟨ha, -⟩ | rfl
    · exact (h.linked a ha x hx y hy).mono fun z hz => contains_insert.mpr (.inl hz)
    · exact (h.chain_merged hmemory hx).trans ((h.chain_merged hmemory hy).symm hsym)

end Components

end AliasSets

end YieldPlan
