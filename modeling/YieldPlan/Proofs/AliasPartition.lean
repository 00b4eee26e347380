import YieldPlan.Proofs.AliasComponents
import YieldPlan.Proofs.ConflictIndex
import YieldPlan.Proofs.Requests

/-! Inserting operations one after the other keeps the sets ordered and apart, so every set is one
whole component and is there once. The components are given by the operations alone, hence two
histories of insertions with the same memory operations end with the same sets. -/

namespace YieldPlan.AliasSets

variable {prog : Program} {mayAlias : AliasOracle} {s : AliasSets} {o x y : OpId}
  {ops : List OpId}

def insertAll (prog : Program) (mayAlias : AliasOracle) (s : AliasSets) (ops : List OpId) :
    AliasSets :=
  ops.foldl (insert prog mayAlias) s

/-- The memory operations of a history. -/
def Inserted (prog : Program) (ops : List OpId) (o : OpId) : Prop :=
  o ∈ ops ∧ (prog.kind o).isMemory = true

theorem insertAll_keeps {P : AliasSets → Prop}
    (hstep : ∀ s o, P s → P (s.insert prog mayAlias o)) (h : P s) (ops : List OpId) :
    P (s.insertAll prog mayAlias ops) := by
  induction ops generalizing s with
  | nil => exact h
  | cons o ops ih => exact ih (hstep s o h)

theorem contains_insertAll : (s.insertAll prog mayAlias ops).contains x = true ↔
    s.contains x = true ∨ Inserted prog ops x := by
  induction ops generalizing s with
  | nil => simp [insertAll, Inserted]
  | cons o ops ih =>
    have hrest : s.insertAll prog mayAlias (o :: ops) =
        (s.insert prog mayAlias o).insertAll prog mayAlias ops := rfl
    rw [hrest, ih, contains_insert]
    constructor
    · rintro ((hold | ⟨rfl, hmemory⟩) | ⟨hx, hmemory⟩)
      · exact .inl hold
      · exact .inr ⟨List.mem_cons_self, hmemory⟩
      · exact .inr ⟨List.mem_cons_of_mem _ hx, hmemory⟩
    · rintro (hold | ⟨hx, hmemory⟩)
      · exact .inl (.inl hold)
      · rcases List.mem_cons.mp hx with rfl | hx
        · exact .inl (.inr ⟨rfl, hmemory⟩)
        · exact .inr ⟨hx, hmemory⟩

structure Separate (s : AliasSets) : Prop where
  nonempty : ∀ set ∈ s.sets, set ≠ []
  disjoint : s.sets.Pairwise List.Disjoint
  increasing : ∀ set ∈ s.sets, set.Pairwise (· < ·)

theorem separate_empty : ({} : AliasSets).Separate where
  nonempty := by simp
  disjoint := .nil
  increasing := by simp

theorem insert_sets (hmemory : (prog.kind o).isMemory = true) (hnew : ¬ s.contains o = true) :
    (s.insert prog mayAlias o).sets =
      s.sets.filter (fun set => !meets prog mayAlias set o) ++ [s.merged prog mayAlias o] := by
  have hskip : ¬ (!(prog.kind o).isMemory || s.contains o) = true := by simp [hmemory, hnew]
  rw [insert, if_neg hskip]
  rfl

namespace Separate

theorem nodup_sets (h : s.Separate) : s.sets.Nodup := by
  refine h.disjoint.imp_of_mem ?_
  rintro a b ha - hdisjoint rfl
  obtain ⟨x, hx⟩ := List.exists_mem_of_ne_nil a (h.nonempty a ha)
  exact hdisjoint hx hx

theorem eq_of_mem (h : s.Separate) {a b : List OpId} (ha : a ∈ s.sets) (hb : b ∈ s.sets)
    (hxa : x ∈ a) (hxb : x ∈ b) : a = b := by
  have hsymm : Std.Symm (List.Disjoint (α := OpId)) := ⟨fun _ _ hdisjoint => hdisjoint.symm⟩
  by_contra hne
  exact h.disjoint.forall ha hb hne hxa hxb

theorem pairwise_merged (h : s.Separate) (hnew : ¬ s.contains o = true) :
    (s.merged prog mayAlias o).Pairwise (· < ·) := by
  have htouched : (s.aliasing prog mayAlias o).flatten.Nodup := by
    refine List.nodup_flatten.mpr ⟨fun set hset => ?_, h.disjoint.sublist List.filter_sublist⟩
    exact (h.increasing set (List.mem_filter.mp hset).1).imp Nat.ne_of_lt
  have hall : ((s.aliasing prog mayAlias o).flatten ++ [o]).Nodup := by
    refine List.nodup_append.mpr ⟨htouched, List.nodup_singleton o, ?_⟩
    rintro x hx y hy rfl
    obtain ⟨set, hset, hx⟩ := List.mem_flatten.mp hx
    rw [List.mem_singleton.mp hy] at hx
    exact hnew (contains_iff.mpr ⟨set, (List.mem_filter.mp hset).1, hx⟩)
  rw [merged, sortBy_eq]
  have hnodup := (List.perm_insertionSort (fun x y : Nat => decide (x ≤ y) = true) _).nodup_iff.mpr hall
  have hsorted := List.pairwise_insertionSort (fun x y : Nat => decide (x ≤ y) = true)
    ((s.aliasing prog mayAlias o).flatten ++ [o])
  refine (hsorted.and hnodup).imp ?_
  rintro a b ⟨hle, hne⟩
  have hle : a ≤ b := by simpa using hle
  exact Nat.lt_of_le_of_ne hle hne

theorem insert (h : s.Separate) (o : OpId) : (s.insert prog mayAlias o).Separate := by
  have hcases : s.insert prog mayAlias o = s ∨ _ := insert_cases
  rcases hcases with hsame | ⟨hmemory, hnew, hsets⟩
  · rw [hsame]
    exact h
  constructor
  · intro set hset
    rcases (hsets set).mp hset with ⟨hset, -⟩ | rfl
    · exact h.nonempty set hset
    · exact List.ne_nil_of_mem (mem_merged.mpr (.inr rfl))
  · rw [insert_sets hmemory hnew]
    refine List.pairwise_append.mpr
      ⟨h.disjoint.sublist List.filter_sublist, List.pairwise_singleton _ _, ?_⟩
    intro a ha b hb x hxa hxb
    obtain ⟨ha, hno⟩ := List.mem_filter.mp ha
    rw [List.mem_singleton.mp hb] at hxb
    rcases mem_merged.mp hxb with ⟨c, hc, hmeets, hxc⟩ | hself
    · simp [h.eq_of_mem ha hc hxa hxc, hmeets] at hno
    · rw [hself] at hxa
      exact hnew (contains_iff.mpr ⟨a, ha, hxa⟩)
  · intro set hset
    rcases (hsets set).mp hset with ⟨hset, -⟩ | rfl
    · exact h.increasing set hset
    · exact h.pairwise_merged hnew

end Separate

/-- The members that chains lead to from one of them, in order. -/
structure IsComponent (prog : Program) (mayAlias : AliasOracle) (member : OpId → Prop)
    (set : List OpId) : Prop where
  increasing : set.Pairwise (· < ·)
  chained : ∃ x, member x ∧ ∀ y, y ∈ set ↔ AliasChain prog mayAlias member x y

/-- The sets hold the operations that were inserted and are kept apart by ordered merging. -/
structure Partition (prog : Program) (mayAlias : AliasOracle) (member : OpId → Prop)
    (s : AliasSets) : Prop where
  separate : s.Separate
  components : s.Components prog mayAlias
  contains : ∀ o, s.contains o = true ↔ member o

theorem partition_insertAll (hsym : ∀ a b, mayAlias a b = mayAlias b a) (ops : List OpId) :
    Partition prog mayAlias (Inserted prog ops) (insertAll prog mayAlias {} ops) where
  separate := insertAll_keeps (fun _ o h => h.insert o) separate_empty ops
  components := insertAll_keeps (fun _ o h => h.insert hsym o) components_empty ops
  contains o := by
    rw [contains_insertAll]
    simp [contains_iff]

namespace Partition

variable {member : OpId → Prop} {set : List OpId}

theorem chain_iff (h : s.Partition prog mayAlias member) (hset : set ∈ s.sets) (hx : x ∈ set) :
    y ∈ set ↔ AliasChain prog mayAlias member x y := by
  have hmember : (fun o => s.contains o = true) = member := funext fun o => propext (h.contains o)
  constructor
  · intro hy
    exact hmember ▸ h.components.linked set hset x hx y hy
  · intro hchain
    exact h.components.mem_of_chain hset hx (hmember ▸ hchain)

theorem mem_sets_iff (h : s.Partition prog mayAlias member) :
    set ∈ s.sets ↔ IsComponent prog mayAlias member set := by
  constructor
  · intro hset
    obtain ⟨x, hx⟩ := List.exists_mem_of_ne_nil set (h.separate.nonempty set hset)
    have hmember : member x := (h.contains x).mp (contains_iff.mpr ⟨set, hset, hx⟩)
    exact ⟨h.separate.increasing set hset, x, hmember, fun y => h.chain_iff hset hx⟩
  · rintro ⟨hincreasing, x, hmember, hchained⟩
    obtain ⟨other, hother, hx⟩ := contains_iff.mp ((h.contains x).mpr hmember)
    have hsame : set = other := by
      apply hincreasing.eq_of_mem_iff (h.separate.increasing other hother)
      intro y
      rw [hchained, h.chain_iff hother hx]
    exact hsame ▸ hother

theorem perm {s' : AliasSets} (h : s.Partition prog mayAlias member)
    (h' : s'.Partition prog mayAlias member) : s.sets.Perm s'.sets := by
  refine (List.perm_ext_iff_of_nodup h.separate.nodup_sets h'.separate.nodup_sets).mpr ?_
  intro set
  rw [h.mem_sets_iff, h'.mem_sets_iff]

end Partition

/-- If it does not matter which of two operations is asked about the other, the alias sets after any
history of insertions are the components of its memory operations: they are not empty, share no
member, are strictly increasing, hold exactly the memory operations that were inserted, and hold two of
them together exactly if a chain of operations that may alias leads from one to the other. Every
other history with the same memory operations, whatever its order and repetitions, ends with the same
sets, and an operation is answered with the components in which it may alias a member. -/
theorem alias_sets_are_components (prog : Program) (mayAlias : AliasOracle)
    (hsym : ∀ a b, mayAlias a b = mayAlias b a) (ops : List OpId) :
    let s := insertAll prog mayAlias {} ops
    let member := Inserted prog ops
    (∀ set ∈ s.sets, set ≠ []) ∧ s.sets.Pairwise List.Disjoint ∧
      (∀ set ∈ s.sets, set.Pairwise (· < ·)) ∧
      (∀ o, s.contains o = true ↔ member o) ∧ (∀ o, o ∈ s.sets.flatten ↔ member o) ∧
      (∀ x y, member x → member y →
        ((∃ set ∈ s.sets, x ∈ set ∧ y ∈ set) ↔ AliasChain prog mayAlias member x y)) ∧
      (∀ ops', (∀ o, Inserted prog ops' o ↔ member o) →
        (insertAll prog mayAlias {} ops').sets.Perm s.sets) ∧
      ∀ o, (s.aliasing prog mayAlias o).Nodup ∧ ∀ set, set ∈ s.aliasing prog mayAlias o ↔
        IsComponent prog mayAlias member set ∧
          ∃ x ∈ set, mayAlias (prog.op x) (prog.op o) = true := by
  intro s member
  have h : s.Partition prog mayAlias member := partition_insertAll hsym ops
  refine ⟨h.separate.nonempty, h.separate.disjoint, h.separate.increasing, h.contains, ?_, ?_, ?_, ?_⟩
  · intro o
    rw [← h.contains, contains_iff, List.mem_flatten]
  · intro x y hx hy
    constructor
    · rintro ⟨set, hset, hxset, hyset⟩
      exact (h.chain_iff hset hxset).mp hyset
    · intro hchain
      obtain ⟨set, hset, hxset⟩ := contains_iff.mp ((h.contains x).mpr hx)
      exact ⟨set, hset, hxset, (h.chain_iff hset hxset).mpr hchain⟩
  · intro ops' hsame
    have hmember : Inserted prog ops' = member := funext fun o => propext (hsame o)
    have h' : (insertAll prog mayAlias {} ops').Partition prog mayAlias (Inserted prog ops') :=
      partition_insertAll hsym ops'
    rw [hmember] at h'
    exact h'.perm h
  · intro o
    refine ⟨h.separate.nodup_sets.filter _, fun set => ?_⟩
    rw [aliasing, List.mem_filter, meets_iff, h.mem_sets_iff]

def unknownAccessSteps : List BuildStep :=
  [.proc "main", .block 0 "entry", .op 0 (.memory .write (.named "x")),
    .op 0 (.memory .read (.named "y")), .op 0 (.memory .read (.named "x")), .op 0 .local,
    .op 0 (.memory .write .unknown), .op 0 (.terminator .ret)]

def unknownAccess : Program := ((BuildStep.applyAll {} unknownAccessSteps).toOption.getD default).1

/-- The unknown access merges the sets of the two places, at whatever point it is inserted. -/
theorem unknown_access_merges_sets :
    (∀ a b, locationAliasing a b = locationAliasing b a) ∧
      (insertAll unknownAccess locationAliasing {} [0, 1, 2, 3]).sets = [[1], [0, 2]] ∧
      AliasChain unknownAccess locationAliasing (Inserted unknownAccess [0, 1, 2, 3, 4]) 0 1 ∧
      ∀ ops', ops'.Perm [0, 1, 2, 3, 4] →
        (insertAll unknownAccess locationAliasing {} ops').sets.Perm [[0, 1, 2, 4]] := by
  have hsets : (insertAll unknownAccess locationAliasing {} [0, 1, 2, 3, 4]).sets =
      [[0, 1, 2, 4]] := by decide +kernel
  obtain ⟨-, -, -, -, -, hchain, hperm, -⟩ := alias_sets_are_components unknownAccess
    locationAliasing locationAliasing_symm [0, 1, 2, 3, 4]
  refine ⟨locationAliasing_symm, by decide +kernel, ?_, fun ops' hops => ?_⟩
  · have hfirst : Inserted unknownAccess [0, 1, 2, 3, 4] 0 := ⟨by decide, by decide +kernel⟩
    have hsecond : Inserted unknownAccess [0, 1, 2, 3, 4] 1 := ⟨by decide, by decide +kernel⟩
    exact (hchain 0 1 hfirst hsecond).mp ⟨[0, 1, 2, 4], by rw [hsets]; simp, by simp, by simp⟩
  · rw [← hsets]
    exact hperm ops' fun o => and_congr_left' hops.mem_iff

end YieldPlan.AliasSets
