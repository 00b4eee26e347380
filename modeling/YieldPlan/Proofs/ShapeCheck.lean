import YieldPlan.Proofs.LoweringExact

/-! A program whose tables are coherent passes its check exactly if it is shaped. If the successors
of its blocks exist too, the check never runs out of range: what it does not pass it reports as
malformed. -/

namespace YieldPlan

/-- The computation gives a result, or reports what is malformed. -/
def Checked.Judges {α : Type} (x : Checked α) : Prop :=
  (∃ a, x = .ok a) ∨ ∃ m : Malformation, x = m.fail

namespace Checked

variable {α β : Type} {x : Checked α}

theorem judges_ok (a : α) : Judges (.ok a) := .inl ⟨a, rfl⟩

theorem judges_fail (m : Malformation) : Judges (m.fail : Checked α) := .inr ⟨m, rfl⟩

theorem Judges.bind {f : α → Checked β} (h : x.Judges) (hf : ∀ a, x = .ok a → (f a).Judges) :
    (x >>= f).Judges := by
  rcases h with ⟨a, rfl⟩ | ⟨m, rfl⟩
  · exact hf a rfl
  · exact .inr ⟨m, rfl⟩

theorem judges_forM {f : α → Checked Unit} {l : List α} (h : ∀ a ∈ l, (f a).Judges) :
    (l.forM f).Judges := by
  induction l with
  | nil => exact judges_ok ()
  | cons a l ih =>
    obtain ⟨ha, hl⟩ := List.forall_mem_cons.mp h
    exact ha.bind fun _ _ => ih hl

end Checked

namespace Program

open Checked

variable {prog : Program} {p : ProcId}

theorem checkLast_of_fits {name : String} {b : Block} {last : Operation}
    (h : (last.kind = .terminator .branch ∧ b.succs ≠ []) ∨
      (last.kind = .terminator .ret ∧ b.succs = [])) : checkLast name b last = .ok () := by
  rcases h with ⟨hkind, hsuccs⟩ | ⟨hkind, hsuccs⟩
  · simp [checkLast, hkind, hsuccs]
  · simp [checkLast, hkind, hsuccs]

theorem Shaped.checkBlock (h : prog.Shaped) {b : BlockId} (hb : b < prog.blocks.size)
    (name : String) : prog.checkBlock (prog.block b).proc name (prog.block b) = .ok () := by
  obtain ⟨last, hlast, hfits⟩ := h.last b hb
  have hop : prog.op? last = some (prog.op last) :=
    op?_of_lt (h.mem_ops.mp (List.mem_of_getLast? hlast)).1
  have hinner : prog.innerTerminator? (prog.block b).ops.dropLast = .ok none := by
    apply Lowering.innerTerminator?_of_none
    intro o ho
    have hlt : o < prog.ops.size := (h.mem_ops.mp (List.dropLast_subset _ ho)).1
    exact ⟨prog.op o, op?_of_lt hlt, h.inner b hb o ho⟩
  simp only [Program.checkBlock, hlast, hinner]
  refine bind_ok.mpr ⟨none, rfl, bind_ok.mpr ⟨_, index_ok.mpr hop, ?_⟩⟩
  refine bind_ok.mpr ⟨(), checkLast_of_fits hfits, ?_⟩
  apply Lowering.checkSuccessors_of_own
  intro s hs
  obtain ⟨hlt, hproc⟩ := h.succ b hb s hs
  exact ⟨prog.block s, block?_of_lt hlt, hproc⟩

theorem Shaped.checkProc (h : prog.Shaped) (hp : p < prog.procs.size) :
    prog.checkProc p = .ok () := by
  obtain ⟨entry, hentry⟩ := h.entry_some p hp
  have hproc : prog.proc? p = some (prog.proc p) := by simp [proc, proc?, hp]
  rw [entryBlock?, hproc, Option.bind_some, h.entry] at hentry
  have hne : (prog.proc p).blocks.isEmpty = false := by
    cases hblocks : (prog.proc p).blocks with
    | nil => simp [hblocks] at hentry
    | cons b bs => rfl
  simp only [Program.checkProc, hne, Bool.false_eq_true, ↓reduceIte]
  apply Lowering.forM_of_ok
  intro b hb
  obtain ⟨hlt, howner⟩ := (h.block_iff p b).mp hb
  refine bind_ok.mpr ⟨prog.block b, index_ok.mpr (block?_of_lt hlt), ?_⟩
  rw [← howner]
  exact h.checkBlock hlt _

theorem Shaped.validate (h : prog.Shaped) : prog.validate = .ok () :=
  Lowering.forM_of_ok fun _ hp => h.checkProc (List.mem_range.mp hp)

theorem innerTerminator?_ends {os : List OpId} (h : ∀ o ∈ os, o < prog.ops.size) :
    ∃ r, prog.innerTerminator? os = .ok r := by
  induction os with
  | nil => exact ⟨none, rfl⟩
  | cons o os ih =>
    obtain ⟨ho, hos⟩ := List.forall_mem_cons.mp h
    obtain ⟨r, hr⟩ := ih hos
    rw [innerTerminator?, op?_of_lt ho]
    by_cases hkind : (prog.op o).kind.isTerminator
    · exact ⟨some (prog.op o), if_pos hkind⟩
    · exact ⟨r, (if_neg hkind).trans hr⟩

theorem checkLast_judges (name : String) (b : Block) (last : Operation) :
    (checkLast name b last).Judges := by
  unfold checkLast
  split
  · split
    · exact judges_fail _
    · exact judges_ok ()
  · split
    · exact judges_ok ()
    · exact judges_fail _
  · exact judges_fail _

theorem checkSuccessors_judges (p : ProcId) (name : String) (b : Block) {ss : List BlockId}
    (h : ∀ s ∈ ss, s < prog.blocks.size) : (prog.checkSuccessors p name b ss).Judges := by
  induction ss with
  | nil => exact judges_ok ()
  | cons s ss ih =>
    obtain ⟨hs, hss⟩ := List.forall_mem_cons.mp h
    rw [checkSuccessors, block?_of_lt hs, index_some, ok_bind]
    split
    · exact judges_fail _
    · exact ih hss

theorem checkBlock_judges (p : ProcId) (name : String) {b : Block}
    (hops : ∀ o ∈ b.ops, o < prog.ops.size) (hsuccs : ∀ s ∈ b.succs, s < prog.blocks.size) :
    (prog.checkBlock p name b).Judges := by
  unfold checkBlock
  split
  · exact judges_fail _
  · next last hlast =>
    have hop : prog.op? last = some (prog.op last) :=
      op?_of_lt (hops last (List.mem_of_getLast? hlast))
    obtain ⟨r, hr⟩ := innerTerminator?_ends fun o ho => hops o (List.dropLast_subset _ ho)
    rw [hr, ok_bind]
    cases r with
    | some op => exact judges_fail _
    | none =>
      rw [hop, index_some]
      exact (checkLast_judges name b _).bind fun _ _ => checkSuccessors_judges p name b hsuccs

theorem Coherent.validate_judges (h : prog.Coherent)
    (hsuccs : ∀ b, ∀ s ∈ (prog.block b).succs, s < prog.blocks.size) : prog.validate.Judges := by
  apply judges_forM
  intro p _
  unfold checkProc
  dsimp only
  split
  · exact judges_fail _
  · apply judges_forM
    intro b hb
    rw [block?_of_lt ((h.block_iff p b).mp hb).1, index_some]
    exact checkBlock_judges p _ (fun o ho => (h.mem_ops.mp ho).1) (hsuccs b)

/-- Finishing accepts exactly the shaped programs, as they are. -/
theorem Coherent.finish_accepts (h : prog.Coherent)
    (hsuccs : ∀ b, ∀ s ∈ (prog.block b).succs, s < prog.blocks.size) :
    prog.finish.Accepts prog.Shaped (· = prog) := by
  by_cases hs : prog.Shaped
  · exact .inl ⟨hs, prog, bind_ok.mpr ⟨(), hs.validate, rfl⟩, rfl⟩
  · rcases h.validate_judges hsuccs with ⟨⟨⟩, hv⟩ | ⟨m, hm⟩
    · exact absurd (h.shaped hv) hs
    · refine .inr ⟨hs, m, ?_⟩
      rw [finish, hm]
      rfl

end Program

end YieldPlan
