import YieldPlan.Program.Lowering
import Mathlib.Data.List.Nodup

/-! Assembling a program keeps its three tables coherent: an operation stands where its record says,
and a block belongs to the procedure that it names. A program that has passed its check also has its
terminators where they belong. Both facts hold of every program that is finished step by step or
lowered from a description. -/

namespace YieldPlan

/-- The tables of a program agree with each other. -/
structure Program.Coherent (prog : Program) : Prop where
  op_iff : ∀ b i o, (prog.block b).ops[i]? = some o ↔
    o < prog.ops.size ∧ prog.blockOf o = b ∧ (prog.op o).position = i
  block_lt : ∀ o < prog.ops.size, prog.blockOf o < prog.blocks.size
  block_iff : ∀ p b, b ∈ (prog.proc p).blocks ↔ b < prog.blocks.size ∧ (prog.block b).proc = p
  proc_lt : ∀ b < prog.blocks.size, (prog.block b).proc < prog.procs.size
  nodup : ∀ p, (prog.proc p).blocks.Nodup
  entry : ∀ p, (prog.proc p).entry = (prog.proc p).blocks.head?

namespace Program

variable {prog : Program}

theorem block_of_le {b : BlockId} (h : prog.blocks.size ≤ b) : prog.block b = default := by
  simp [block, block?, h]

theorem block?_of_lt {b : BlockId} (hb : b < prog.blocks.size) :
    prog.block? b = some (prog.block b) := by
  simp [block, block?, hb]

theorem op?_of_lt {o : OpId} (ho : o < prog.ops.size) : prog.op? o = some (prog.op o) := by
  simp [op, op?, ho]

theorem lt_of_kind_ne {o : OpId} (h : prog.kind o ≠ .debug) : o < prog.ops.size := by
  by_contra hle
  apply h
  rw [kind, op, op?, Array.getElem?_eq_none (Nat.le_of_not_lt hle)]
  rfl

theorem coherent_empty (name : String) : Coherent { entrypoint := name } where
  op_iff b i o := by simp [block, block?, default, instInhabitedBlock.default]
  block_lt o h := by simp at h
  block_iff p b := by simp [proc, proc?, default, instInhabitedProcedure.default]
  proc_lt b h := by simp at h
  nodup p := by simp [proc, proc?, default, instInhabitedProcedure.default]
  entry p := by simp [proc, proc?, default, instInhabitedProcedure.default]

theorem proc_addProc (name : String) (p : ProcId) :
    (prog.addProc name).proc p = if p = prog.procs.size then { name } else prog.proc p := by
  simp only [proc, proc?, addProc, Array.getElem?_push]
  split <;> simp

theorem block_addBlock {p : ProcId} (name : String) (b : BlockId) :
    (prog.addBlock p name).block b =
      if b = prog.blocks.size then { name, proc := p } else prog.block b := by
  simp only [block, block?, addBlock, Array.getElem?_push]
  split <;> simp

theorem proc_addBlock {p : ProcId} (hp : p < prog.procs.size) (name : String) (q : ProcId) :
    (prog.addBlock p name).proc q =
      if q = p then (prog.proc p).addBlock prog.blocks.size else prog.proc q := by
  simp only [proc, proc?, addBlock, Array.getElem?_modify]
  by_cases h : p = q
  · subst h
    simp [hp]
  · simp [h, Ne.symm h]

theorem op_push {b : BlockId} (kind : OpKind) (o : OpId) :
    (prog.push b kind).op o =
      if o = prog.ops.size then ⟨b, (prog.block b).ops.length, kind⟩ else prog.op o := by
  simp only [op, op?, push, Array.getElem?_push]
  split <;> simp

theorem block_push {b : BlockId} (hb : b < prog.blocks.size) (kind : OpKind) (c : BlockId) :
    (prog.push b kind).block c =
      if c = b then { prog.block b with ops := (prog.block b).ops ++ [prog.ops.size] }
      else prog.block c := by
  simp only [block, block?, push, Array.getElem?_modify]
  by_cases h : b = c
  · subst h
    simp [hb]
  · simp [h, Ne.symm h]

def retarget (prog : Program) (b : BlockId) (succs : List BlockId) : Program :=
  { prog with blocks := prog.blocks.modify b fun blk => { blk with succs } }

theorem block_retarget (b : BlockId) (succs : List BlockId) (c : BlockId) :
    ((prog.retarget b succs).block c).ops = (prog.block c).ops ∧
      ((prog.retarget b succs).block c).proc = (prog.block c).proc := by
  simp only [block, block?, retarget, Array.getElem?_modify]
  by_cases h : b = c
  · subst h
    cases prog.blocks[b]? <;> simp
  · simp [h]

namespace Coherent

variable (h : prog.Coherent)

include h

theorem setEntrypoint (name : String) : Coherent { prog with entrypoint := name } :=
  ⟨h.op_iff, h.block_lt, h.block_iff, h.proc_lt, h.nodup, h.entry⟩

theorem addProc (name : String) : (prog.addProc name).Coherent where
  op_iff := h.op_iff
  block_lt := h.block_lt
  block_iff p b := by
    rw [proc_addProc]
    split
    · next hp =>
      refine ⟨fun hb => by simp at hb, fun ⟨hb, hbp⟩ => ?_⟩
      exact absurd hp (Nat.ne_of_lt (hbp ▸ h.proc_lt b hb))
    · exact h.block_iff p b
  proc_lt b hb := by
    have := h.proc_lt b hb
    simp only [Program.addProc, Array.size_push]
    exact Nat.lt_succ_of_lt this
  nodup p := by
    rw [proc_addProc]
    split
    · exact List.nodup_nil
    · exact h.nodup p
  entry p := by
    rw [proc_addProc]
    split
    · rfl
    · exact h.entry p

theorem addBlock {p : ProcId} (hp : p < prog.procs.size) (name : String) :
    (prog.addBlock p name).Coherent where
  op_iff b i o := by
    rw [block_addBlock]
    split
    · next hb =>
      refine ⟨fun ho => by simp at ho, fun ⟨ho, hob, hpos⟩ => ?_⟩
      exact absurd hb (Nat.ne_of_lt (hob ▸ h.block_lt o ho))
    · exact h.op_iff b i o
  block_lt o ho := by
    have := h.block_lt o ho
    simp only [Program.addBlock, Array.size_push]
    exact Nat.lt_succ_of_lt this
  block_iff q b := by
    have hsize : (prog.addBlock p name).blocks.size = prog.blocks.size + 1 := by
      simp [Program.addBlock]
    rw [proc_addBlock hp, block_addBlock, hsize, Nat.lt_succ_iff_lt_or_eq]
    by_cases hb : b = prog.blocks.size
    · subst hb
      have hnew : prog.blocks.size ∉ (prog.proc q).blocks :=
        fun hc => Nat.lt_irrefl _ ((h.block_iff q _).mp hc).1
      by_cases hq : q = p
      · simp [hq, Procedure.addBlock]
      · simp [hq, hnew, Ne.symm hq]
    · by_cases hq : q = p
      · subst hq
        simp [Procedure.addBlock, hb, h.block_iff]
      · simp [hq, hb, h.block_iff]
  proc_lt b hb := by
    have hsize : (prog.addBlock p name).procs.size = prog.procs.size := by
      simp [Program.addBlock]
    have hsize' : (prog.addBlock p name).blocks.size = prog.blocks.size + 1 := by
      simp [Program.addBlock]
    rw [block_addBlock, hsize]
    split
    · exact hp
    · next hne =>
      rw [hsize'] at hb
      exact h.proc_lt b ((Nat.lt_succ_iff_lt_or_eq.mp hb).resolve_right hne)
  nodup q := by
    rw [proc_addBlock hp]
    split
    · refine List.nodup_append.mpr ⟨h.nodup p, List.nodup_singleton _, fun b hb c hc => ?_⟩
      rintro rfl
      have := ((h.block_iff p b).mp hb).1
      rw [List.mem_singleton.mp hc] at this
      exact Nat.lt_irrefl _ this
    · exact h.nodup q
  entry q := by
    rw [proc_addBlock hp]
    split
    · simp only [Procedure.addBlock, h.entry, List.head?_append]
      rfl
    · exact h.entry q

theorem push {b : BlockId} (hb : b < prog.blocks.size) (kind : OpKind) :
    (prog.push b kind).Coherent where
  op_iff c i o := by
    have hsize : (prog.push b kind).ops.size = prog.ops.size + 1 := by simp [Program.push]
    have hlt : o < prog.ops.size + 1 ↔ o < prog.ops.size ∨ o = prog.ops.size :=
      Nat.lt_succ_iff_lt_or_eq
    rw [blockOf, op_push, block_push hb, hsize, hlt]
    by_cases ho : o = prog.ops.size
    · subst ho
      simp only [if_true, Nat.lt_irrefl, false_or, true_and]
      by_cases hc : c = b
      · subst hc
        simp only [if_true, true_and, List.getElem?_append]
        split
        · next hi =>
          refine ⟨fun hx => absurd ((h.op_iff c i _).mp hx).1 (Nat.lt_irrefl _), fun hx => ?_⟩
          exact absurd hx (Nat.ne_of_gt hi)
        · next hi => rw [List.getElem?_singleton]; split <;> simp <;> omega
      · rw [if_neg hc]
        refine ⟨fun hx => absurd ((h.op_iff c i _).mp hx).1 (Nat.lt_irrefl _), fun hx => ?_⟩
        exact absurd hx.1.symm hc
    · rw [if_neg ho, or_iff_left ho, ← blockOf]
      by_cases hc : c = b
      · subst hc
        rw [if_pos rfl, ← h.op_iff c i o, List.getElem?_append]
        split
        · exact Iff.rfl
        · next hi =>
          rw [List.getElem?_singleton, List.getElem?_eq_none (Nat.le_of_not_lt hi)]
          split <;> simp [Ne.symm ho]
      · rw [if_neg hc]
        exact h.op_iff c i o
  block_lt o ho := by
    have hsize : (prog.push b kind).ops.size = prog.ops.size + 1 := by simp [Program.push]
    have hsize' : (prog.push b kind).blocks.size = prog.blocks.size := by simp [Program.push]
    rw [blockOf, op_push, hsize']
    split
    · exact hb
    · next hne =>
      rw [hsize] at ho
      exact h.block_lt o ((Nat.lt_succ_iff_lt_or_eq.mp ho).resolve_right hne)
  block_iff p c := by
    have hsize : (prog.push b kind).blocks.size = prog.blocks.size := by simp [Program.push]
    rw [block_push hb, hsize]
    have := h.block_iff p c
    split
    · next hc => subst hc; exact this
    · exact this
  proc_lt c hc := by
    have hsize : (prog.push b kind).blocks.size = prog.blocks.size := by simp [Program.push]
    rw [hsize] at hc
    rw [block_push hb]
    have := h.proc_lt c hc
    split
    · next he => subst he; exact this
    · exact this
  nodup := h.nodup
  entry := h.entry

theorem branch {b : BlockId} (hb : b < prog.blocks.size) (succs : List BlockId) :
    (prog.branch b succs).Coherent := by
  have hsize : (prog.retarget b succs).blocks.size = prog.blocks.size := by simp [retarget]
  have hr : (prog.retarget b succs).Coherent := by
    refine ⟨fun c i o => ?_, fun o ho => ?_, fun p c => ?_, fun c hc => ?_, h.nodup, h.entry⟩
    · rw [(block_retarget b succs c).1]
      exact h.op_iff c i o
    · rw [hsize]
      exact h.block_lt o ho
    · rw [hsize, (block_retarget b succs c).2]
      exact h.block_iff p c
    · rw [(block_retarget b succs c).2]
      exact h.proc_lt c (hsize ▸ hc)
  exact hr.push (hsize.symm ▸ hb) _

end Coherent

end Program

theorem BuildStep.apply_coherent {prog q : Program} {step : BuildStep} {i : Nat}
    (h : prog.Coherent) (hq : step.apply prog = .ok (q, i)) : q.Coherent := by
  cases step with
  | entrypoint name => cases hq; exact h.setEntrypoint name
  | proc name => cases hq; exact h.addProc name
  | block p name =>
    rw [apply] at hq
    split at hq
    · next hp => cases hq; exact h.addBlock hp name
    · cases hq
  | op b kind =>
    rw [apply] at hq
    split at hq
    · next hb => cases hq; exact h.push hb kind
    · cases hq
  | branch b succs =>
    rw [apply] at hq
    split at hq
    · next hb => cases hq; exact h.branch hb succs
    · cases hq

theorem BuildStep.applyAll_coherent {steps : List BuildStep} {prog q : Program} {is : List Nat}
    (h : prog.Coherent) (hq : applyAll prog steps = .ok (q, is)) : q.Coherent := by
  induction steps generalizing prog is with
  | nil => cases hq; exact h
  | cons step rest ih =>
    rw [applyAll] at hq
    obtain ⟨⟨q₁, i⟩, h₁, hq⟩ := Checked.bind_ok.mp hq
    obtain ⟨⟨q₂, is₂⟩, h₂, hq⟩ := Checked.bind_ok.mp hq
    cases hq
    exact ih (apply_coherent h h₁) h₂

namespace Lowering

/-- The program gets operations and nothing else. -/
structure Fills (prog q : Program) : Prop where
  coherent : prog.Coherent → q.Coherent
  procs : q.procs.size = prog.procs.size
  blocks : q.blocks.size = prog.blocks.size

theorem Fills.trans {p q r : Program} (h : Fills p q) (k : Fills q r) : Fills p r :=
  ⟨fun hp => k.coherent (h.coherent hp), k.procs.trans h.procs, k.blocks.trans h.blocks⟩

theorem fills_push {prog : Program} {b : BlockId} (hb : b < prog.blocks.size) (kind : OpKind) :
    Fills prog (prog.push b kind) :=
  ⟨fun h => h.push hb kind, rfl, by simp [Program.push]⟩

theorem fills_branch {prog : Program} {b : BlockId} (hb : b < prog.blocks.size)
    (succs : List BlockId) : Fills prog (prog.branch b succs) :=
  ⟨fun h => h.branch hb succs, rfl, by simp [Program.branch, Program.push]⟩

theorem body_fills {procs : List String} {b : BlockId} {ops : List OperationDesc}
    {prog q : Program} (hb : b < prog.blocks.size) (h : body procs b prog ops = .ok q) :
    Fills prog q := by
  induction ops generalizing prog with
  | nil => cases h; exact ⟨id, rfl, rfl⟩
  | cons o rest ih =>
    rw [body] at h
    obtain ⟨kind, -, h⟩ := Checked.bind_ok.mp h
    have hpush := fills_push hb kind
    exact hpush.trans (ih (hpush.blocks.symm ▸ hb) h)

theorem terminate_fills {proc : String} {blocks : List String} {base b : BlockId} {d : BlockDesc}
    {prog q : Program} (hb : b < prog.blocks.size)
    (h : terminate proc blocks base b d prog = .ok q) : Fills prog q := by
  rw [terminate] at h
  split at h
  · cases h; exact fills_push hb _
  · obtain ⟨succs, -, h⟩ := Checked.bind_ok.mp h
    cases h
    exact fills_branch hb succs

theorem fillBlocks_fills {procs : List String} {proc : String} {blocks : List String}
    {base b : BlockId} {ds : List BlockDesc} {prog q : Program}
    (hb : b + ds.length ≤ prog.blocks.size)
    (h : fillBlocks procs proc blocks base b prog ds = .ok q) : Fills prog q := by
  induction ds generalizing b prog with
  | nil => cases h; exact ⟨id, rfl, rfl⟩
  | cons d rest ih =>
    rw [fillBlocks] at h
    obtain ⟨q₁, h₁, h⟩ := Checked.bind_ok.mp h
    obtain ⟨q₂, h₂, h⟩ := Checked.bind_ok.mp h
    rw [List.length_cons] at hb
    have hlt : b < prog.blocks.size := Nat.lt_of_lt_of_le (Nat.lt_add_of_pos_right (by simp)) hb
    have hbody := body_fills hlt h₁
    have hterm := hbody.trans (terminate_fills (hbody.blocks.symm ▸ hlt) h₂)
    refine hterm.trans (ih ?_ h)
    rw [hterm.blocks, Nat.succ_add_eq_add_succ]
    exact hb

theorem declareBlocks_coherent {p : ProcId} (names : List String) {prog : Program}
    (h : prog.Coherent) (hp : p < prog.procs.size) :
    (names.foldl (fun q n => q.addBlock p n) prog).Coherent ∧
      (names.foldl (fun q n => q.addBlock p n) prog).procs.size = prog.procs.size ∧
      (names.foldl (fun q n => q.addBlock p n) prog).blocks.size =
        prog.blocks.size + names.length := by
  induction names generalizing prog with
  | nil => exact ⟨h, rfl, rfl⟩
  | cons n names ih =>
    have hprocs : (prog.addBlock p n).procs.size = prog.procs.size := by simp [Program.addBlock]
    have hblocks : (prog.addBlock p n).blocks.size = prog.blocks.size + 1 := by
      simp [Program.addBlock]
    obtain ⟨hc, hps, hbs⟩ := ih (h.addBlock hp n) (hprocs.symm ▸ hp)
    refine ⟨hc, hps.trans hprocs, hbs.trans ?_⟩
    rw [hblocks, List.length_cons, Nat.succ_add_eq_add_succ]

theorem procedure_coherent {procs : List String} {p : ProcId} {d : ProcedureDesc}
    {prog q : Program} (h : prog.Coherent) (hp : p < prog.procs.size)
    (hq : procedure procs p prog d = .ok q) : q.Coherent ∧ q.procs.size = prog.procs.size := by
  rw [procedure] at hq
  split at hq
  · cases hq
  · dsimp only at hq
    split at hq
    · cases hq
    · obtain ⟨hc, hprocs, hblocks⟩ := declareBlocks_coherent (d.blocks.map (·.name)) h hp
      have hf := fillBlocks_fills (by simp [hblocks]) hq
      exact ⟨hf.coherent hc, hf.procs.trans hprocs⟩

theorem procedures_coherent {procs : List String} {p : ProcId} {ds : List ProcedureDesc}
    {prog q : Program} (h : prog.Coherent) (hp : p + ds.length ≤ prog.procs.size)
    (hq : procedures procs p prog ds = .ok q) : q.Coherent := by
  induction ds generalizing p prog with
  | nil => cases hq; exact h
  | cons d rest ih =>
    rw [procedures] at hq
    obtain ⟨q₁, h₁, hq⟩ := Checked.bind_ok.mp hq
    rw [List.length_cons] at hp
    have hlt : p < prog.procs.size := Nat.lt_of_lt_of_le (Nat.lt_add_of_pos_right (by simp)) hp
    obtain ⟨hc, hsize⟩ := procedure_coherent h hlt h₁
    refine ih hc ?_ hq
    rw [hsize, Nat.succ_add_eq_add_succ]
    exact hp

theorem declare_coherent (names : List String) {prog : Program} (h : prog.Coherent) :
    (names.foldl Program.addProc prog).Coherent ∧
      (names.foldl Program.addProc prog).procs.size = prog.procs.size + names.length := by
  induction names generalizing prog with
  | nil => exact ⟨h, rfl⟩
  | cons n names ih =>
    obtain ⟨hc, hsize⟩ := ih (h.addProc n)
    refine ⟨hc, hsize.trans ?_⟩
    simp only [Program.addProc, Array.size_push, List.length_cons]
    exact Nat.succ_add_eq_add_succ _ _

end Lowering

/-- The program was assembled in steps that all succeeded, or lowered from a description, and its
check has passed. -/
def Program.Built (prog : Program) : Prop :=
  (∃ steps q is, BuildStep.applyAll {} steps = .ok (q, is) ∧ q.finish = .ok prog) ∨
    ∃ d : Description, d.lower = .ok prog

theorem Program.finish_ok {prog q : Program} (h : q.finish = .ok prog) :
    q = prog ∧ prog.validate = .ok () := by
  obtain ⟨⟨⟩, hv, h⟩ := Checked.bind_ok.mp h
  cases h
  exact ⟨rfl, hv⟩

theorem Program.Built.coherent {prog : Program} (h : prog.Built) :
    prog.Coherent ∧ prog.validate = .ok () := by
  rcases h with ⟨steps, q, is, hq, hf⟩ | ⟨d, hd⟩
  · obtain ⟨rfl, hv⟩ := finish_ok hf
    exact ⟨BuildStep.applyAll_coherent (coherent_empty "main") hq, hv⟩
  · simp only [Description.lower] at hd
    split at hd
    · cases hd
    · obtain ⟨q, hq, hf⟩ := Checked.bind_ok.mp hd
      obtain ⟨rfl, hv⟩ := finish_ok hf
      obtain ⟨hc, hsize⟩ := Lowering.declare_coherent (d.procedures.map (·.name))
        (coherent_empty d.main)
      refine ⟨Lowering.procedures_coherent hc ?_ hq, hv⟩
      rw [hsize, List.length_map]
      simp

namespace Program

variable {prog : Program}

/-- The shape that a checked program has. -/
structure Shaped (prog : Program) : Prop extends prog.Coherent where
  entry_some : ∀ p < prog.procs.size, ∃ b, prog.entryBlock? p = some b
  ops_ne : ∀ b < prog.blocks.size, (prog.block b).ops ≠ []
  inner : ∀ b < prog.blocks.size, ∀ o ∈ (prog.block b).ops.dropLast, ¬ (prog.kind o).isTerminator
  last : ∀ b < prog.blocks.size, ∃ o, (prog.block b).ops.getLast? = some o ∧
    ((prog.kind o = .terminator .branch ∧ (prog.block b).succs ≠ []) ∨
      (prog.kind o = .terminator .ret ∧ (prog.block b).succs = []))
  succ : ∀ b < prog.blocks.size, ∀ s ∈ (prog.block b).succs, s < prog.blocks.size ∧
    (prog.block s).proc = (prog.block b).proc

theorem forM_ok {α : Type} {f : α → Checked Unit} {l : List α} (h : l.forM f = .ok ()) :
    ∀ a ∈ l, f a = .ok () := by
  induction l with
  | nil => simp
  | cons a l ih =>
    obtain ⟨⟨⟩, ha, h⟩ := Checked.bind_ok.mp h
    exact List.forall_mem_cons.mpr ⟨ha, ih h⟩

theorem innerTerminator?_none {os : List OpId} (h : prog.innerTerminator? os = .ok none) :
    ∀ o ∈ os, ¬ (prog.kind o).isTerminator := by
  induction os with
  | nil => simp
  | cons o os ih =>
    rw [innerTerminator?] at h
    obtain ⟨r, hr, h⟩ := Checked.bind_ok.mp h
    split at h
    · cases h
    · next hk =>
      refine List.forall_mem_cons.mpr ⟨?_, ih h⟩
      rwa [kind, op, Checked.index_ok.mp hr]

theorem checkLast_ok {name : String} {b : Block} {last : Operation}
    (h : checkLast name b last = .ok ()) :
    (last.kind = .terminator .branch ∧ b.succs ≠ []) ∨
      (last.kind = .terminator .ret ∧ b.succs = []) := by
  rw [checkLast] at h
  split at h
  · next hk =>
    split at h
    · cases h
    · next hs => exact .inl ⟨hk, by simpa using hs⟩
  · next hk =>
    split at h
    · next hs => exact .inr ⟨hk, by simpa using hs⟩
    · cases h
  · cases h

theorem checkSuccessors_ok {p : ProcId} {name : String} {b : Block} {ss : List BlockId}
    (h : prog.checkSuccessors p name b ss = .ok ()) :
    ∀ s ∈ ss, s < prog.blocks.size ∧ (prog.block s).proc = p := by
  induction ss with
  | nil => simp
  | cons s ss ih =>
    rw [checkSuccessors] at h
    obtain ⟨succ, hs, h⟩ := Checked.bind_ok.mp h
    split at h
    · cases h
    · next hp =>
      have hs := Checked.index_ok.mp hs
      refine List.forall_mem_cons.mpr ⟨⟨?_, ?_⟩, ih h⟩
      · exact (Array.getElem?_eq_some_iff.mp hs).1
      · rw [block, hs]
        exact not_not.mp hp

theorem checkBlock_ok {p : ProcId} {name : String} {b : Block}
    (h : prog.checkBlock p name b = .ok ()) :
    b.ops ≠ [] ∧ (∀ o ∈ b.ops.dropLast, ¬ (prog.kind o).isTerminator) ∧
      (∃ o, b.ops.getLast? = some o ∧
        ((prog.kind o = .terminator .branch ∧ b.succs ≠ []) ∨
          (prog.kind o = .terminator .ret ∧ b.succs = []))) ∧
      ∀ s ∈ b.succs, s < prog.blocks.size ∧ (prog.block s).proc = p := by
  rw [checkBlock] at h
  split at h
  · cases h
  · next last hlast =>
    obtain ⟨inner, hinner, h⟩ := Checked.bind_ok.mp h
    split at h
    · cases h
    · obtain ⟨op, hop, h⟩ := Checked.bind_ok.mp h
      obtain ⟨⟨⟩, hl, h⟩ := Checked.bind_ok.mp h
      have hk : prog.kind last = op.kind := by rw [kind, Program.op, Checked.index_ok.mp hop]; rfl
      refine ⟨?_, innerTerminator?_none hinner, ⟨last, hlast, ?_⟩, checkSuccessors_ok h⟩
      · rintro hn
        rw [hn] at hlast
        cases hlast
      · rw [hk]
        exact checkLast_ok hl

theorem Coherent.shaped (h : prog.Coherent) (hv : prog.validate = .ok ()) : prog.Shaped := by
  have hproc : ∀ p < prog.procs.size, prog.checkProc p = .ok () :=
    fun p hp => forM_ok hv p (List.mem_range.mpr hp)
  have hblock : ∀ b, (hb : b < prog.blocks.size) →
      prog.checkBlock (prog.block b).proc (prog.proc (prog.block b).proc).name (prog.block b) =
        .ok () := by
    intro b hb
    have hc := hproc _ (h.proc_lt b hb)
    simp only [checkProc] at hc
    split at hc
    · cases hc
    · have hbc := forM_ok hc b ((h.block_iff _ b).mpr ⟨hb, rfl⟩)
      obtain ⟨blk, hblk, hbc⟩ := Checked.bind_ok.mp hbc
      have hblk := Checked.index_ok.mp hblk
      have : prog.block b = blk := by rw [block, hblk]; rfl
      rw [this] at hbc ⊢
      exact hbc
  refine ⟨h, fun p hp => ?_, fun b hb => (checkBlock_ok (hblock b hb)).1,
    fun b hb => (checkBlock_ok (hblock b hb)).2.1, fun b hb => (checkBlock_ok (hblock b hb)).2.2.1,
    fun b hb => (checkBlock_ok (hblock b hb)).2.2.2⟩
  have hc := hproc p hp
  simp only [checkProc] at hc
  split at hc
  · cases hc
  · next hne =>
    have hsome : prog.proc? p = some (prog.proc p) := by
      simp [proc, proc?, hp]
    rw [entryBlock?, hsome, Option.bind_some, h.entry]
    cases hb : (prog.proc p).blocks with
    | nil => simp [hb] at hne
    | cons b bs => exact ⟨b, rfl⟩

theorem Built.shaped (h : prog.Built) : prog.Shaped := h.coherent.1.shaped h.coherent.2

end Program

end YieldPlan
