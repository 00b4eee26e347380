import Mathlib.Algebra.GroupWithZero.Nat
import YieldPlan.Proofs.LoweredPrograms
import YieldPlan.Proofs.NameResolution

/-! Exactly the well-formed descriptions are lowered. Each stage of lowering adds the blocks and
operations that it is given behind those that are there, and touches no other block or procedure. So
the program has the procedures, blocks and operations of the description and no others, numbered in
the order in which they are written, and its check succeeds. -/

namespace YieldPlan

namespace BlockDesc

def size (d : BlockDesc) : Nat := d.ops.length + 1

def terminator (d : BlockDesc) : Terminator := if d.succs.isEmpty then .ret else .branch

end BlockDesc

def ProcedureDesc.size (d : ProcedureDesc) : Nat := (d.blocks.map (·.size)).sum

/-- Block `b` is the described one. It belongs to procedure `p`, whose first block is `base`, and
its operations are numbered from `start` on. -/
structure BlockDesc.Stands (procs blocks : List String) (p : ProcId) (base : BlockId)
    (prog : Program) (b : BlockId) (start : OpId) (d : BlockDesc) : Prop where
  block : prog.block? b = some
    { name := d.name
      proc := p
      ops := List.range' start d.size
      succs := d.succs.map fun s => base + blocks.idxOf s }
  op : ∀ (i : Nat) o, d.ops[i]? = some o → ∃ kind, OpKind.Means procs o kind ∧
    prog.op? (start + i) = some ⟨b, i, kind⟩
  last : prog.op? (start + d.ops.length) = some ⟨b, d.ops.length, .terminator d.terminator⟩

/-- Procedure `p` is the described one. Its blocks are numbered from `base` on, and the operations
in them from `start` on. -/
structure ProcedureDesc.Stands (procs : List String) (prog : Program) (p : ProcId) (base : BlockId)
    (start : OpId) (d : ProcedureDesc) : Prop where
  proc : prog.proc? p = some
    { name := d.name, blocks := List.range' base d.blocks.length, entry := some base }
  block : ∀ (i : Nat) (b : BlockDesc), d.blocks[i]? = some b →
    b.Stands procs d.blockNames p base prog (base + i)
      (start + ((d.blocks.take i).map (·.size)).sum)

structure Description.Stands (d : Description) (prog : Program) : Prop where
  entrypoint : prog.entrypoint = d.main
  options : prog.extraOptions = []
  procs : prog.procs.size = d.procedures.length
  blocks : prog.blocks.size = (d.procedures.map (·.blocks.length)).sum
  ops : prog.ops.size = (d.procedures.map (·.size)).sum
  proc : ∀ (p : Nat) (pd : ProcedureDesc), d.procedures[p]? = some pd → pd.Stands d.procNames prog p
    ((d.procedures.take p).map (·.blocks.length)).sum ((d.procedures.take p).map (·.size)).sum

namespace Lowering

open Program Checked

variable {procs : List String}

/-- Outside the procedures of `P` and the blocks of `B` the second program is as the first, and it
has all operations of the first. -/
structure Touches (P : ProcId → Prop) (B : BlockId → Prop) (prog q : Program) : Prop where
  ops : ∀ o op, prog.op? o = some op → q.op? o = some op
  blocks : ∀ b, ¬ B b → q.block? b = prog.block? b
  procs : ∀ p, ¬ P p → q.proc? p = prog.proc? p
  entrypoint : q.entrypoint = prog.entrypoint
  options : q.extraOptions = prog.extraOptions

variable {P P' : ProcId → Prop} {B B' : BlockId → Prop} {prog q r : Program}

theorem Touches.refl (prog : Program) : Touches P B prog prog :=
  ⟨fun _ _ => id, fun _ _ => rfl, fun _ _ => rfl, rfl, rfl⟩

theorem Touches.trans (h : Touches P B prog q) (k : Touches P B q r) : Touches P B prog r where
  ops o op ho := k.ops o op (h.ops o op ho)
  blocks b hb := (k.blocks b hb).trans (h.blocks b hb)
  procs p hp := (k.procs p hp).trans (h.procs p hp)
  entrypoint := k.entrypoint.trans h.entrypoint
  options := k.options.trans h.options

theorem Touches.mono (h : Touches P B prog q) (hP : ∀ p, P p → P' p) (hB : ∀ b, B b → B' b) :
    Touches P' B' prog q where
  ops := h.ops
  blocks b hb := h.blocks b fun hb' => hb (hB b hb')
  procs p hp := h.procs p fun hp' => hp (hP p hp')
  entrypoint := h.entrypoint
  options := h.options

theorem touches_push (b : BlockId) (kind : OpKind) :
    Touches (fun _ => False) (· = b) prog (prog.push b kind) where
  ops o op ho := by
    have hlt : o < prog.ops.size := (Array.getElem?_eq_some_iff.mp ho).1
    rw [op?, push, Array.getElem?_push, if_neg (Nat.ne_of_lt hlt)]
    exact ho
  blocks c hc := by
    rw [block?, push, Array.getElem?_modify, if_neg (Ne.symm hc)]
    rfl
  procs _ _ := rfl
  entrypoint := rfl
  options := rfl

theorem touches_retarget (b : BlockId) (succs : List BlockId) :
    Touches (fun _ => False) (· = b) prog (prog.retarget b succs) where
  ops _ _ ho := ho
  blocks c hc := by
    rw [block?, retarget, Array.getElem?_modify, if_neg (Ne.symm hc)]
    rfl
  procs _ _ := rfl
  entrypoint := rfl
  options := rfl

theorem touches_addProc (name : String) :
    Touches (prog.procs.size ≤ ·) (fun _ => False) prog (prog.addProc name) where
  ops _ _ ho := ho
  blocks _ _ := rfl
  procs r hr := by
    rw [proc?, addProc, Array.getElem?_push, if_neg (by omega)]
    rfl
  entrypoint := rfl
  options := rfl

theorem touches_addBlock (p : ProcId) (name : String) :
    Touches (· = p) (prog.blocks.size ≤ ·) prog (prog.addBlock p name) where
  ops _ _ ho := ho
  blocks b hb := by
    rw [block?, addBlock, Array.getElem?_push, if_neg (by omega)]
    rfl
  procs r hr := by
    rw [proc?, addBlock, Array.getElem?_modify, if_neg (Ne.symm hr)]
    rfl
  entrypoint := rfl
  options := rfl

variable {b : BlockId} {blk : Block}

theorem block?_push (hb : prog.block? b = some blk) (kind : OpKind) :
    (prog.push b kind).block? b = some { blk with ops := blk.ops ++ [prog.ops.size] } := by
  rw [block?] at hb ⊢
  rw [push, Array.getElem?_modify, if_pos rfl, hb]
  rfl

theorem op?_push (hb : prog.block? b = some blk) (kind : OpKind) :
    (prog.push b kind).op? prog.ops.size = some ⟨b, blk.ops.length, kind⟩ := by
  rw [op?, push, Array.getElem?_push, if_pos rfl, block, hb]
  rfl

theorem size_push (b : BlockId) (kind : OpKind) :
    (prog.push b kind).ops.size = prog.ops.size + 1 := by simp [push]

/-- The operations have been appended to the block, in order. -/
structure Appended (procs : List String) (b : BlockId) (blk : Block) (ops : List OperationDesc)
    (prog q : Program) : Prop where
  touches : Touches (fun _ => False) (· = b) prog q
  size : q.ops.size = prog.ops.size + ops.length
  block : q.block? b =
    some { blk with ops := blk.ops ++ List.range' prog.ops.size ops.length }
  op : ∀ (i : Nat) o, ops[i]? = some o → ∃ kind, OpKind.Means procs o kind ∧
    q.op? (prog.ops.size + i) = some ⟨b, blk.ops.length + i, kind⟩

theorem Appended.cons {o : OperationDesc} {ops : List OperationDesc} {kind : OpKind}
    (hb : prog.block? b = some blk) (hkind : OpKind.Means procs o kind)
    (h : Appended procs b { blk with ops := blk.ops ++ [prog.ops.size] } ops
      (prog.push b kind) q) : Appended procs b blk (o :: ops) prog q where
  touches := (touches_push b kind).trans h.touches
  size := by
    rw [h.size, size_push, List.length_cons]
    omega
  block := by
    rw [h.block, size_push, List.length_cons, List.range'_succ]
    simp
  op i x hx := by
    cases i with
    | zero =>
      obtain rfl : o = x := by simpa using hx
      exact ⟨kind, hkind, h.touches.ops _ _ (op?_push hb kind)⟩
    | succ i =>
      obtain ⟨kind', hkind', hop⟩ := h.op i x (by simpa using hx)
      rw [size_push, List.length_append, List.length_singleton] at hop
      refine ⟨kind', hkind', ?_⟩
      simpa only [Nat.add_assoc, Nat.add_comm 1] using hop

theorem body_accepts (procs : List String) (hb : prog.block? b = some blk)
    (ops : List OperationDesc) :
    (body procs b prog ops).Accepts (∀ o ∈ ops, o.Resolves procs)
      (Appended procs b blk ops prog) := by
  induction ops generalizing prog blk with
  | nil =>
    apply accepts_ok
    · simp
    · exact ⟨.refl prog, rfl, by simpa using hb, by simp⟩
  | cons o ops ih =>
    rw [body]
    refine ((operation_accepts o).bind (V := ∀ o ∈ ops, o.Resolves procs)
      fun kind hkind => ?_).congr List.forall_mem_cons.symm
    exact (ih (block?_push hb kind)).mono fun q _ => Appended.cons hb hkind

structure Ended (b : BlockId) (blk : Block) (t : Terminator) (succs : List BlockId)
    (prog q : Program) : Prop where
  touches : Touches (fun _ => False) (· = b) prog q
  size : q.ops.size = prog.ops.size + 1
  block : q.block? b = some { blk with ops := blk.ops ++ [prog.ops.size], succs }
  op : q.op? prog.ops.size = some ⟨b, blk.ops.length, .terminator t⟩

theorem ended_branch (hb : prog.block? b = some blk) (succs : List BlockId) :
    Ended b blk .branch succs prog (prog.branch b succs) := by
  have hr : (prog.retarget b succs).block? b = some { blk with succs } := by
    rw [block?] at hb ⊢
    rw [retarget, Array.getElem?_modify, if_pos rfl, hb]
    rfl
  constructor
  · exact (touches_retarget b succs).trans (touches_push b _)
  · exact size_push b _
  · exact block?_push hr _
  · exact op?_push hr _

theorem terminate_accepts (hb : prog.block? b = some blk) (hsuccs : blk.succs = []) (proc : String)
    (blocks : List String) (base : BlockId) (d : BlockDesc) :
    (terminate proc blocks base b d prog).Accepts (∀ s ∈ d.succs, s ∈ blocks)
      (Ended b blk d.terminator (d.succs.map fun s => base + blocks.idxOf s) prog) := by
  unfold terminate BlockDesc.terminator
  by_cases hnone : d.succs = []
  · simp only [hnone, List.isEmpty_nil, ↓reduceIte, List.map_nil]
    apply accepts_ok
    · simp
    · constructor
      · exact touches_push b _
      · exact size_push b _
      · obtain ⟨name, owner, ops, succs⟩ := blk
        obtain rfl : succs = [] := hsuccs
        exact block?_push hb _
      · exact op?_push hb _
  · have hempty : d.succs.isEmpty = false := by simpa using hnone
    simp only [hempty, Bool.false_eq_true, ↓reduceIte]
    refine ((successors_accepts proc d.name blocks base d.succs).bind (V := True)
      fun succs hs => ?_).congr (and_iff_left trivial)
    subst hs
    exact accepts_ok trivial (ended_branch hb _)

theorem stands_of_ended {d : BlockDesc} {p : ProcId} {blocks : List String} {base : BlockId}
    (h : Appended procs b { name := d.name, proc := p } d.ops prog q)
    (k : Ended b { name := d.name, proc := p, ops := List.range' prog.ops.size d.ops.length }
      d.terminator (d.succs.map fun s => base + blocks.idxOf s) q r) :
    d.Stands procs blocks p base r b prog.ops.size where
  block := by
    rw [k.block, h.size, BlockDesc.size, List.range'_concat, Nat.one_mul]
  op i o ho := by
    obtain ⟨kind, hkind, hop⟩ := h.op i o ho
    refine ⟨kind, hkind, k.touches.ops _ _ ?_⟩
    simpa using hop
  last := by
    have hop := k.op
    rw [h.size] at hop
    simpa using hop

theorem stands_touches {d : BlockDesc} {p : ProcId} {blocks : List String}
    {base : BlockId} {start : OpId} (h : d.Stands procs blocks p base prog b start)
    (k : Touches P B prog q) (hb : ¬ B b) : d.Stands procs blocks p base q b start where
  block := (k.blocks b hb).trans h.block
  op i o ho := by
    obtain ⟨kind, hkind, hop⟩ := h.op i o ho
    exact ⟨kind, hkind, k.ops _ _ hop⟩
  last := k.ops _ _ h.last

/-- The blocks from `b` on are those of the description, with their operations from `start` on. -/
structure Filled (procs blocks : List String) (p : ProcId) (base b : BlockId)
    (ds : List BlockDesc) (prog q : Program) : Prop where
  touches : Touches (fun _ => False) (b ≤ ·) prog q
  size : q.ops.size = prog.ops.size + (ds.map (·.size)).sum
  block : ∀ (i : Nat) (d : BlockDesc), ds[i]? = some d → d.Stands procs blocks p base q (b + i)
    (prog.ops.size + ((ds.take i).map (·.size)).sum)

theorem Filled.cons {p : ProcId} {blocks : List String} {base : BlockId} {d : BlockDesc}
    {ds : List BlockDesc} {q₂ : Program} (hd : d.Stands procs blocks p base q₂ b prog.ops.size)
    (h₁ : Touches (fun _ => False) (· = b) prog q₂) (hsize : q₂.ops.size = prog.ops.size + d.size)
    (h : Filled procs blocks p base (b + 1) ds q₂ q) :
    Filled procs blocks p base b (d :: ds) prog q where
  touches := by
    apply (h₁.mono (fun _ => id) _).trans (h.touches.mono (fun _ => id) _)
    · exact fun _ hc => Nat.le_of_eq hc.symm
    · exact fun _ hc => Nat.le_of_succ_le hc
  size := by
    rw [h.size, hsize, List.map_cons, List.sum_cons]
    omega
  block i d' hd' := by
    cases i with
    | zero =>
      obtain rfl : d = d' := by simpa using hd'
      exact stands_touches hd h.touches (Nat.not_succ_le_self b)
    | succ i =>
      have hstands := h.block i d' (by simpa using hd')
      rw [hsize] at hstands
      simpa only [List.take_succ_cons, List.map_cons, List.sum_cons, Nat.add_assoc,
        Nat.add_comm 1] using hstands

theorem fillBlocks_accepts {p : ProcId} (procs : List String) (proc : String)
    (blocks : List String) (base : BlockId) (ds : List BlockDesc)
    (hb : ∀ (i : Nat) d, ds[i]? = some d →
      prog.block? (b + i) = some { name := d.name, proc := p }) :
    (fillBlocks procs proc blocks base b prog ds).Accepts (∀ d ∈ ds, d.WellFormed procs blocks)
      (Filled procs blocks p base b ds prog) := by
  induction ds generalizing b prog with
  | nil =>
    apply accepts_ok
    · simp
    · exact ⟨.refl prog, rfl, by simp⟩
  | cons d ds ih =>
    have hfirst : prog.block? b = some { name := d.name, proc := p } := hb 0 d rfl
    rw [fillBlocks]
    refine ((body_accepts procs hfirst d.ops).bind
      (V := (∀ s ∈ d.succs, s ∈ blocks) ∧ ∀ d ∈ ds, d.WellFormed procs blocks) fun q₁ h₁ =>
        (terminate_accepts (by simpa using h₁.block) rfl proc blocks base d).bind fun q₂ h₂ =>
          (ih (b := b + 1) ?_).mono fun q _ h => ?_).congr ?_
    · intro i d' hd'
      have hne : b + 1 + i ≠ b := Nat.ne_of_gt (Nat.lt_add_right i (Nat.lt_succ_self b))
      rw [h₂.touches.blocks _ hne, h₁.touches.blocks _ hne]
      simpa only [Nat.add_assoc, Nat.add_comm 1] using hb (i + 1) d' (by simpa using hd')
    · refine h.cons (stands_of_ended h₁ h₂) (h₁.touches.trans h₂.touches) ?_
      rw [h₂.size, h₁.size, BlockDesc.size, Nat.add_assoc]
    · rw [List.forall_mem_cons, ← and_assoc]
      exact and_congr_left' ⟨fun hd => ⟨hd.1, hd.2⟩, fun hd => ⟨hd.ops, hd.succs⟩⟩

variable {p : ProcId}

/-- The blocks have been added to the procedure, empty as yet. -/
structure Declared (p : ProcId) (proc : Procedure) (names : List String) (prog q : Program) :
    Prop where
  touches : Touches (· = p) (prog.blocks.size ≤ ·) prog q
  procs : q.procs.size = prog.procs.size
  size : q.blocks.size = prog.blocks.size + names.length
  ops : q.ops.size = prog.ops.size
  proc : q.proc? p = some { proc with
    blocks := proc.blocks ++ List.range' prog.blocks.size names.length
    entry := proc.entry.or (List.range' prog.blocks.size names.length).head? }
  block : ∀ (i : Nat) name, names[i]? = some name →
    q.block? (prog.blocks.size + i) = some { name, proc := p }

theorem size_addBlock (prog : Program) (p : ProcId) (name : String) :
    (prog.addBlock p name).blocks.size = prog.blocks.size + 1 := by simp [addBlock]

theorem declareBlocks {proc : Procedure} (hp : prog.proc? p = some proc) (names : List String) :
    Declared p proc names prog (names.foldl (fun q n => q.addBlock p n) prog) := by
  induction names generalizing prog proc with
  | nil =>
    constructor
    · exact .refl prog
    · rfl
    · rfl
    · rfl
    · simpa using hp
    · simp
  | cons name names ih =>
    have hproc : (prog.addBlock p name).proc? p = some (proc.addBlock prog.blocks.size) := by
      rw [proc?] at hp ⊢
      rw [addBlock, Array.getElem?_modify, if_pos rfl, hp]
      rfl
    have h := ih hproc
    have hsize := size_addBlock prog p name
    have hprocs : (prog.addBlock p name).procs.size = prog.procs.size := by simp [addBlock]
    constructor
    · apply (touches_addBlock p name).trans (h.touches.mono (fun _ => id) _)
      intro b hb
      omega
    · rw [List.foldl_cons, h.procs, hprocs]
    · rw [List.foldl_cons, h.size, hsize, List.length_cons]
      omega
    · exact h.ops
    · rw [List.foldl_cons, h.proc, hsize, List.length_cons, List.range'_succ]
      simp [Procedure.addBlock]
    · intro i n hn
      cases i with
      | zero =>
        obtain rfl : name = n := by simpa using hn
        rw [List.foldl_cons, h.touches.blocks _ (by omega), block?, addBlock]
        exact Array.getElem?_push_size
      | succ i =>
        have hblock := h.block i n (by simpa using hn)
        rw [hsize] at hblock
        simpa only [List.foldl_cons, Nat.add_assoc, Nat.add_comm 1] using hblock

/-- The procedure is as described, made of new blocks and operations only. -/
structure Assembled (procs : List String) (p : ProcId) (d : ProcedureDesc) (prog q : Program) :
    Prop where
  touches : Touches (· = p) (prog.blocks.size ≤ ·) prog q
  procCount : q.procs.size = prog.procs.size
  blockCount : q.blocks.size = prog.blocks.size + d.blocks.length
  opCount : q.ops.size = prog.ops.size + d.size
  stands : d.Stands procs q p prog.blocks.size prog.ops.size

theorem assembled_of_filled {d : ProcedureDesc} (hne : d.blocks ≠ [])
    (h : Declared p { name := d.name } d.blockNames prog q) (hfills : Fills q r)
    (k : Filled procs d.blockNames p prog.blocks.size prog.blocks.size d.blocks q r) :
    Assembled procs p d prog r := by
  have hlength : d.blockNames.length = d.blocks.length := List.length_map _
  constructor
  · exact h.touches.trans (k.touches.mono (fun _ => False.elim) fun _ => id)
  · rw [hfills.procs, h.procs]
  · rw [hfills.blocks, h.size, hlength]
  · rw [k.size, h.ops]
    rfl
  · constructor
    · obtain ⟨n, hn⟩ : ∃ n, d.blocks.length = n + 1 :=
        Nat.exists_eq_succ_of_ne_zero fun hzero => hne (List.length_eq_zero_iff.mp hzero)
      rw [k.touches.procs p id, h.proc, hlength, hn, List.range'_succ]
      rfl
    · intro i b hb
      have hstands := k.block i b hb
      rwa [h.ops] at hstands

theorem procedure_accepts {d : ProcedureDesc} (procs : List String)
    (hp : prog.proc? p = some { name := d.name }) :
    (procedure procs p prog d).Accepts (d.WellFormed procs) (Assembled procs p d prog) := by
  unfold procedure
  by_cases hne : d.blocks = []
  · simp only [hne, List.isEmpty_nil, ↓reduceIte]
    exact accepts_fail fun hw => hw.nonempty hne
  · have hempty : d.blocks.isEmpty = false := by simpa using hne
    simp only [hempty, Bool.false_eq_true, ↓reduceIte]
    have hdeclared := declareBlocks hp d.blockNames
    have hfilled := fillBlocks_accepts (p := p) (b := prog.blocks.size) procs d.name
      d.blockNames prog.blocks.size d.blocks fun i b hb => hdeclared.block i b.name (by
        simp [ProcedureDesc.blockNames, hb])
    refine (accepts_distinct (hfilled.mono fun q hq k => ?_)).congr ?_
    · apply assembled_of_filled hne hdeclared (fillBlocks_fills _ hq) k
      rw [hdeclared.size]
      simp [ProcedureDesc.blockNames]
    · exact ⟨fun hw => ⟨hne, hw.1, hw.2⟩, fun hw => ⟨hw.nodup, hw.blocks⟩⟩

theorem pstands_touches {d : ProcedureDesc} {base : BlockId} {start : OpId}
    (h : d.Stands procs prog p base start) (k : Touches P B prog q) (hp : ¬ P p)
    (hb : ∀ i < d.blocks.length, ¬ B (base + i)) : d.Stands procs q p base start where
  proc := (k.procs p hp).trans h.proc
  block i b hi := by
    have hlt : i < d.blocks.length := (List.getElem?_eq_some_iff.mp hi).1
    exact stands_touches (h.block i b hi) k (hb i hlt)

/-- The procedures from `p` on are those of the description, made of new blocks and operations. -/
structure Completed (procs : List String) (p : ProcId) (ds : List ProcedureDesc)
    (prog q : Program) : Prop where
  touches : Touches (p ≤ ·) (prog.blocks.size ≤ ·) prog q
  procCount : q.procs.size = prog.procs.size
  blockCount : q.blocks.size = prog.blocks.size + (ds.map (·.blocks.length)).sum
  opCount : q.ops.size = prog.ops.size + (ds.map (·.size)).sum
  stands : ∀ (i : Nat) (d : ProcedureDesc), ds[i]? = some d → d.Stands procs q (p + i)
    (prog.blocks.size + ((ds.take i).map (·.blocks.length)).sum)
    (prog.ops.size + ((ds.take i).map (·.size)).sum)

theorem Completed.cons {d : ProcedureDesc} {ds : List ProcedureDesc} {q₁ : Program}
    (h₁ : Assembled procs p d prog q₁) (h : Completed procs (p + 1) ds q₁ q) :
    Completed procs p (d :: ds) prog q where
  touches := by
    apply (h₁.touches.mono _ fun _ => id).trans (h.touches.mono _ _)
    · exact fun _ hr => Nat.le_of_eq hr.symm
    · exact fun _ hr => Nat.le_of_succ_le hr
    · intro b hb
      rw [h₁.blockCount] at hb
      omega
  procCount := h.procCount.trans h₁.procCount
  blockCount := by
    rw [h.blockCount, h₁.blockCount, List.map_cons, List.sum_cons, Nat.add_assoc]
  opCount := by
    rw [h.opCount, h₁.opCount, List.map_cons, List.sum_cons, Nat.add_assoc]
  stands i d' hd' := by
    cases i with
    | zero =>
      obtain rfl : d = d' := by simpa using hd'
      apply pstands_touches h₁.stands h.touches (Nat.not_succ_le_self p)
      intro i hi
      rw [h₁.blockCount]
      exact Nat.not_le.mpr (Nat.add_lt_add_left hi _)
    | succ i =>
      have hstands := h.stands i d' (by simpa using hd')
      rw [h₁.blockCount, h₁.opCount] at hstands
      simpa only [List.take_succ_cons, List.map_cons, List.sum_cons, Nat.add_assoc,
        Nat.add_comm 1] using hstands

theorem procedures_accepts (ds : List ProcedureDesc)
    (hp : ∀ (i : Nat) (d : ProcedureDesc), ds[i]? = some d →
      prog.proc? (p + i) = some { name := d.name }) :
    (procedures procs p prog ds).Accepts (∀ d ∈ ds, d.WellFormed procs)
      (Completed procs p ds prog) := by
  induction ds generalizing p prog with
  | nil =>
    apply accepts_ok
    · simp
    · exact ⟨.refl prog, rfl, rfl, rfl, by simp⟩
  | cons d ds ih =>
    have hfirst : prog.proc? p = some { name := d.name } := hp 0 d rfl
    rw [procedures]
    refine ((procedure_accepts procs hfirst).bind
      (V := ∀ d ∈ ds, d.WellFormed procs) fun q₁ h₁ => ?_).congr List.forall_mem_cons.symm
    refine (ih (p := p + 1) ?_).mono fun q _ h => h.cons h₁
    intro i d' hd'
    have hne : p + 1 + i ≠ p := Nat.ne_of_gt (Nat.lt_add_right i (Nat.lt_succ_self p))
    rw [h₁.touches.procs _ hne]
    simpa only [Nat.add_assoc, Nat.add_comm 1] using hp (i + 1) d' (by simpa using hd')

structure Named (names : List String) (prog q : Program) : Prop where
  touches : Touches (prog.procs.size ≤ ·) (fun _ => False) prog q
  size : q.procs.size = prog.procs.size + names.length
  blocks : q.blocks = prog.blocks
  ops : q.ops = prog.ops
  proc : ∀ (i : Nat) name, names[i]? = some name →
    q.proc? (prog.procs.size + i) = some { name }

theorem declareProcs (names : List String) (prog : Program) :
    Named names prog (names.foldl addProc prog) := by
  induction names generalizing prog with
  | nil => exact ⟨.refl prog, rfl, rfl, rfl, by simp⟩
  | cons name names ih =>
    have hsize : (prog.addProc name).procs.size = prog.procs.size + 1 := by simp [addProc]
    have h := ih (prog.addProc name)
    constructor
    · apply (touches_addProc name).trans (h.touches.mono _ fun _ => id)
      intro p hp
      omega
    · rw [List.foldl_cons, h.size, hsize, List.length_cons]
      omega
    · exact h.blocks
    · exact h.ops
    · intro i n hn
      cases i with
      | zero =>
        obtain rfl : name = n := by simpa using hn
        rw [List.foldl_cons, h.touches.procs _ (by omega)]
        exact Array.getElem?_push_size
      | succ i =>
        have hproc := h.proc i n (by simpa using hn)
        rw [hsize] at hproc
        simpa only [List.foldl_cons, Nat.add_assoc, Nat.add_comm 1] using hproc

theorem forM_of_ok {α : Type} {f : α → Checked Unit} {l : List α} (h : ∀ a ∈ l, f a = .ok ()) :
    l.forM f = .ok () := by
  induction l with
  | nil => rfl
  | cons a l ih =>
    obtain ⟨ha, hl⟩ := List.forall_mem_cons.mp h
    exact Checked.bind_ok.mpr ⟨(), ha, ih hl⟩

theorem innerTerminator?_of_none {os : List OpId}
    (h : ∀ o ∈ os, ∃ op, prog.op? o = some op ∧ ¬ op.kind.isTerminator) :
    prog.innerTerminator? os = .ok none := by
  induction os with
  | nil => rfl
  | cons o os ih =>
    obtain ⟨⟨op, hop, hkind⟩, hrest⟩ := List.forall_mem_cons.mp h
    rw [innerTerminator?, hop]
    show (if op.kind.isTerminator then _ else _) = _
    rw [if_neg hkind]
    exact ih hrest

theorem checkSuccessors_of_own {name : String} {ss : List BlockId}
    (h : ∀ s ∈ ss, ∃ succ, prog.block? s = some succ ∧ succ.proc = p) :
    prog.checkSuccessors p name blk ss = .ok () := by
  induction ss with
  | nil => rfl
  | cons s ss ih =>
    obtain ⟨⟨succ, hsucc, hproc⟩, hrest⟩ := List.forall_mem_cons.mp h
    rw [checkSuccessors]
    refine Checked.bind_ok.mpr ⟨succ, Checked.index_ok.mpr hsucc, ?_⟩
    rw [if_neg (not_not.mpr hproc)]
    exact ih hrest

theorem not_isTerminator {o : OperationDesc} {kind : OpKind} (h : OpKind.Means procs o kind) :
    ¬ kind.isTerminator := by
  cases h <;> simp [OpKind.isTerminator]

theorem stands_checkBlock {d : BlockDesc} {blocks : List String} {base : BlockId} {start : OpId}
    (name : String) (h : d.Stands procs blocks p base prog b start)
    (hsuccs : ∀ s ∈ d.succs, ∃ succ, prog.block? (base + blocks.idxOf s) = some succ ∧
      succ.proc = p) :
    ∃ blk, prog.block? b = some blk ∧ prog.checkBlock p name blk = .ok () := by
  refine ⟨_, h.block, ?_⟩
  have hinner : ∀ o ∈ List.range' start d.ops.length,
      ∃ op, prog.op? o = some op ∧ ¬ op.kind.isTerminator := by
    intro o ho
    obtain ⟨i, hi, rfl⟩ := List.mem_range'.mp ho
    obtain ⟨kind, hkind, hop⟩ := h.op i _ (List.getElem?_eq_getElem hi)
    rw [Nat.one_mul]
    exact ⟨_, hop, not_isTerminator hkind⟩
  have hlast : ∀ ops, checkLast name ⟨d.name, p, ops, d.succs.map fun s => base + blocks.idxOf s⟩
      ⟨b, d.ops.length, .terminator d.terminator⟩ = .ok () := by
    intro ops
    by_cases hnone : d.succs = []
    · simp [BlockDesc.terminator, checkLast, hnone]
    · simp [BlockDesc.terminator, checkLast, hnone]
  simp only [checkBlock, BlockDesc.size, List.range'_concat, Nat.one_mul, List.getLast?_concat,
    List.dropLast_concat, innerTerminator?_of_none hinner]
  refine Checked.bind_ok.mpr ⟨none, rfl, Checked.bind_ok.mpr ⟨_, Checked.index_ok.mpr h.last, ?_⟩⟩
  refine Checked.bind_ok.mpr ⟨(), hlast _, ?_⟩
  apply checkSuccessors_of_own
  intro c hc
  obtain ⟨s, hs, rfl⟩ := List.mem_map.mp hc
  exact hsuccs s hs

theorem stands_checkProc {d : ProcedureDesc} {base : BlockId} {start : OpId}
    (h : d.Stands procs prog p base start) (hw : d.WellFormed procs) :
    prog.checkProc p = .ok () := by
  have hproc : prog.proc p = ⟨d.name, List.range' base d.blocks.length, some base⟩ := by
    rw [proc, h.proc]
    rfl
  have hne : (List.range' base d.blocks.length).isEmpty = false := by
    simpa [List.range'_eq_nil_iff] using hw.nonempty
  simp only [checkProc, hproc, hne, Bool.false_eq_true, ↓reduceIte]
  apply forM_of_ok
  intro c hc
  obtain ⟨i, hi, rfl⟩ := List.mem_range'.mp hc
  rw [Nat.one_mul]
  have hget : d.blocks[i]? = some d.blocks[i] := List.getElem?_eq_getElem hi
  obtain ⟨blk, hblk, hcheck⟩ := stands_checkBlock d.name (h.block i _ hget) (by
    intro s hs
    have hmem : s ∈ d.blockNames := (hw.blocks _ (List.getElem_mem hi)).succs s hs
    have hlt : d.blockNames.idxOf s < d.blocks.length := by
      simpa [ProcedureDesc.blockNames] using List.idxOf_lt_length_iff.mpr hmem
    exact ⟨_, (h.block _ _ (List.getElem?_eq_getElem hlt)).block, rfl⟩)
  exact Checked.bind_ok.mpr ⟨blk, Checked.index_ok.mpr hblk, hcheck⟩

end Lowering

def Description.declared (d : Description) : Program :=
  d.procNames.foldl Program.addProc { entrypoint := d.main }

namespace Description

open Lowering Checked

variable {d : Description}

theorem stands_of_completed {prog : Program}
    (h : Completed d.procNames 0 d.procedures d.declared prog) : d.Stands prog := by
  have hnamed : Named d.procNames { entrypoint := d.main } d.declared := declareProcs _ _
  have hblocks : d.declared.blocks.size = 0 := congrArg Array.size hnamed.blocks
  have hops : d.declared.ops.size = 0 := congrArg Array.size hnamed.ops
  constructor
  · exact h.touches.entrypoint.trans hnamed.touches.entrypoint
  · exact h.touches.options.trans hnamed.touches.options
  · rw [h.procCount, hnamed.size]
    simp [procNames]
  · rw [h.blockCount, hblocks, Nat.zero_add]
  · rw [h.opCount, hops, Nat.zero_add]
  · intro p pd hp
    have hstands := h.stands p pd hp
    rwa [hblocks, hops, Nat.zero_add, Nat.zero_add, Nat.zero_add] at hstands

theorem Stands.validate {prog : Program} (h : d.Stands prog)
    (hw : ∀ p ∈ d.procedures, p.WellFormed d.procNames) : prog.validate = .ok () := by
  apply forM_of_ok
  intro p hp
  have hlt : p < d.procedures.length := by
    rw [← h.procs]
    exact List.mem_range.mp hp
  exact stands_checkProc (h.proc p _ (List.getElem?_eq_getElem hlt)) (hw _ (List.getElem_mem hlt))

theorem filled_accepts (d : Description) :
    (Lowering.procedures d.procNames 0 d.declared d.procedures).Accepts
      (∀ p ∈ d.procedures, p.WellFormed d.procNames) d.Stands := by
  refine (procedures_accepts d.procedures ?_).mono fun prog _ h => stands_of_completed h
  intro i pd hpd
  apply (declareProcs d.procNames { entrypoint := d.main }).proc i pd.name
  simp [procNames, hpd]

/-- The final check finds nothing that lowering has not found before. -/
theorem validate_filled {prog : Program}
    (h : Lowering.procedures d.procNames 0 d.declared d.procedures = .ok prog) :
    prog.validate = .ok () := by
  rcases filled_accepts d with ⟨hw, q, hq, hstands⟩ | ⟨-, m, hm⟩
  · rw [h] at hq
    cases hq
    exact hstands.validate hw
  · rw [h] at hm
    cases hm

theorem lower_accepts (d : Description) : d.lower.Accepts d.WellFormed d.Stands := by
  have hfilled : Checked.Accepts
      (Lowering.procedures d.procNames 0 d.declared d.procedures >>= Program.finish)
      (∀ p ∈ d.procedures, p.WellFormed d.procNames) d.Stands := by
    rcases filled_accepts d with ⟨hw, prog, hprog, hstands⟩ | ⟨hw, m, hm⟩
    · refine .inl ⟨hw, prog, Checked.bind_ok.mpr ⟨prog, hprog, ?_⟩, hstands⟩
      exact Checked.bind_ok.mpr ⟨(), validate_filled hprog, rfl⟩
    · refine .inr ⟨hw, m, ?_⟩
      rw [hm]
      rfl
  exact (accepts_distinct hfilled).congr
    ⟨fun hw => ⟨hw.1, hw.2⟩, fun hw => ⟨hw.nodup, hw.procedures⟩⟩

end Description

/-- A description is lowered exactly if it is well-formed, and otherwise it is reported as malformed;
the check of the assembled program never fails. The program has the procedures, blocks and operations
of the description, all numbered in their order. -/
theorem lowering_is_exact (d : Description) :
    ((∃ prog, d.lower = .ok prog) ↔ d.WellFormed) ∧
    (¬ d.WellFormed → ∃ m : Malformation, d.lower = m.fail) ∧
    (∀ prog, Lowering.procedures d.procNames 0 d.declared d.procedures = .ok prog →
      prog.validate = .ok ()) ∧
    ∀ prog, d.lower = .ok prog → d.Stands prog := by
  have haccepts := d.lower_accepts
  refine ⟨⟨?_, ?_⟩, ?_, fun prog => Description.validate_filled, fun prog => haccepts.of_ok⟩
  · rintro ⟨prog, hprog⟩
    rcases haccepts with ⟨hw, -⟩ | ⟨-, m, hm⟩
    · exact hw
    · rw [hprog] at hm
      cases hm
  · intro hw
    rcases haccepts with ⟨-, prog, hprog, -⟩ | ⟨hno, -⟩
    · exact ⟨prog, hprog⟩
    · exact absurd hw hno
  · intro hno
    rcases haccepts with ⟨hw, -⟩ | ⟨-, hm⟩
    · exact absurd hw hno
    · exact hm

/-- A thread that takes a lock by either of its names, and a procedure that hides a library function. -/
def Description.relocked : Description where
  procedures := [
    { name := "main"
      blocks := [
        { name := "start", ops := [.call "thrd_create" (some "worker"), .call "log" (some "m")]
          succs := ["done"] },
        { name := "done", ops := [.call "mtx_unlock" none, .access .write none] }] },
    { name := "worker"
      blocks := [{ name := "start", ops := [.call "mtx_lock" (some "m"), .access .read (some "x"),
        .call "pthread_mutex_lock" none, .access .atomicUpdate (some "x")] }] },
    { name := "mtx_unlock", blocks := [{ name := "start", ops := [.local] }] }]

def Program.relocked : Program := Description.relocked.lower.toOption.getD default

theorem relocked_stands_in_its_program :
    Description.relocked.WellFormed ∧ Description.relocked.lower = .ok .relocked ∧
      Description.relocked.Stands .relocked ∧
      Program.relocked.ops.toList.map (·.kind) =
        [.library (.threadCreate 1), .library (.unknown "log"), .terminator .branch, .call 2,
          .memory .write .unknown, .terminator .ret, .library (.mutexLock (.named "m")),
          .memory .read (.named "x"), .library (.mutexLock .unknown),
          .memory .atomicUpdate (.named "x"), .terminator .ret, .local, .terminator .ret] := by
  have hlower : Description.relocked.lower = .ok .relocked :=
    Checked.ok_of_toOption (by decide +kernel)
  obtain ⟨hiff, -, -, hstands⟩ := lowering_is_exact Description.relocked
  exact ⟨hiff.mp ⟨_, hlower⟩, hlower, hstands _ hlower, by decide +kernel⟩

end YieldPlan
