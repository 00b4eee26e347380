import YieldPlan.Proofs.ProgramShape
import Mathlib.Logic.Relation

/-! One step of control leads from an operation to the next one of its block, into a procedure that
it enters, or over a branch. Control comes back from a call if the callee can return, or if the
block of the call is on a cycle of its procedure. All operations of blocks on one cycle lead to each
other. -/

namespace YieldPlan.Program

variable (prog : Program)

def Succ (b s : BlockId) : Prop := s ∈ (prog.block b).succs

def OnCycle (b : BlockId) : Prop := Relation.TransGen prog.Succ b b

def Follows (o o' : OpId) : Prop :=
  prog.opAt? (prog.blockOf o) ((prog.op o).position + 1) = some o'

/-- One step of control, given the procedures that can return. -/
inductive Flow (returns : ProcId → Prop) : OpId → OpId → Prop where
  | next {o o'} : ¬ (prog.kind o).isTerminator → (prog.kind o).callee? = none →
      prog.Follows o o' → Flow returns o o'
  | resume {o o' f} : (prog.kind o).callee? = some f → returns f ∨ prog.OnCycle (prog.blockOf o) →
      prog.Follows o o' → Flow returns o o'
  | enter {o o' f} : (prog.kind o).callEdge? = some f → prog.entryOp? f = some o' →
      Flow returns o o'
  | branch {o s o'} : prog.kind o = .terminator .branch → prog.Succ (prog.blockOf o) s →
      prog.opAt? s 0 = some o' → Flow returns o o'

/-- One step between blocks. -/
inductive BlockFlow : BlockId → BlockId → Prop where
  | succ {b s} : prog.Succ b s → BlockFlow b s
  | enter {b c o f} : o ∈ (prog.block b).ops → (prog.kind o).callEdge? = some f →
      prog.entryBlock? f = some c → BlockFlow b c

def Calls (p q : ProcId) : Prop :=
  ∃ o < prog.ops.size, prog.procOf o = p ∧ (prog.kind o).callEdge? = some q

variable {prog} {returns : ProcId → Prop}

theorem lt_of_succ {b s : BlockId} (h : prog.Succ b s) : b < prog.blocks.size := by
  by_contra hb
  rw [Succ, block_of_le (Nat.le_of_not_lt hb)] at h
  cases h

theorem callEdge?_of_callee? {k : OpKind} {f : ProcId} (h : k.callee? = some f) :
    k.callEdge? = some f := by
  cases k <;> simp_all [OpKind.callee?, OpKind.callEdge?]

theorem callEdge?_of_spawn? {k : OpKind} {q : ProcId} (h : k.spawn? = some q) :
    k.callEdge? = some q := by
  cases k with
  | library c => cases c <;> simp_all [OpKind.callEdge?, OpKind.spawn?]
  | _ => simp_all [OpKind.spawn?]

theorem not_isTerminator_of_callEdge? {k : OpKind} {f : ProcId} (h : k.callEdge? = some f) :
    ¬ k.isTerminator := by
  cases k <;> simp_all [OpKind.callEdge?, OpKind.isTerminator]

theorem callee?_or_spawn? {k : OpKind} {f : ProcId} (h : k.callEdge? = some f) :
    (k.callee? = some f ∧ k.spawn? = none) ∨ (k.callee? = none ∧ k.spawn? = some f) := by
  cases k with
  | library c => cases c <;> simp_all [OpKind.callEdge?, OpKind.callee?, OpKind.spawn?]
  | _ => simp_all [OpKind.callEdge?, OpKind.callee?, OpKind.spawn?]

namespace Coherent

variable (h : prog.Coherent)

include h

theorem mem_ops {b : BlockId} {o : OpId} :
    o ∈ (prog.block b).ops ↔ o < prog.ops.size ∧ prog.blockOf o = b := by
  constructor
  · intro ho
    obtain ⟨i, hi⟩ := List.getElem?_of_mem ho
    obtain ⟨hlt, hb, -⟩ := (h.op_iff b i o).mp hi
    exact ⟨hlt, hb⟩
  · rintro ⟨hlt, hb⟩
    exact List.mem_of_getElem? ((h.op_iff b _ o).mpr ⟨hlt, hb, rfl⟩)

theorem opAt?_iff {b : BlockId} {i : Nat} {o : OpId} : prog.opAt? b i = some o ↔
    o < prog.ops.size ∧ prog.blockOf o = b ∧ (prog.op o).position = i := h.op_iff b i o

theorem opAt?_self {o : OpId} (ho : o < prog.ops.size) :
    prog.opAt? (prog.blockOf o) (prog.op o).position = some o := h.opAt?_iff.mpr ⟨ho, rfl, rfl⟩

theorem op_ext {o o' : OpId} (ho : o < prog.ops.size) (ho' : o' < prog.ops.size)
    (hb : prog.blockOf o = prog.blockOf o') (hp : (prog.op o).position = (prog.op o').position) :
    o = o' := by
  have := h.opAt?_self ho
  rw [hb, hp, h.opAt?_self ho'] at this
  exact (Option.some.inj this).symm

theorem position_lt {o : OpId} (ho : o < prog.ops.size) :
    (prog.op o).position < (prog.block (prog.blockOf o)).ops.length :=
  (List.getElem?_eq_some_iff.mp (h.opAt?_self ho)).1

theorem follows_iff {o o' : OpId} : prog.Follows o o' ↔ o' < prog.ops.size ∧
    prog.blockOf o' = prog.blockOf o ∧ (prog.op o').position = (prog.op o).position + 1 :=
  h.opAt?_iff

theorem nodup_ops (b : BlockId) : (prog.block b).ops.Nodup := by
  refine List.nodup_iff_getElem?_ne_getElem?.mpr fun i j hij hj he => ?_
  have ho := List.getElem?_eq_getElem hj
  have hi := ((h.op_iff b i _).mp (he.trans ho)).2.2
  exact absurd (hi.symm.trans ((h.op_iff b j _).mp ho).2.2) (Nat.ne_of_lt hij)

end Coherent

namespace Shaped

variable (h : prog.Shaped)

include h

theorem blockOf_lt {o : OpId} (ho : o < prog.ops.size) : prog.blockOf o < prog.blocks.size :=
  h.block_lt o ho

theorem not_isTerminator {o o' : OpId} (ho : o < prog.ops.size) (hf : prog.Follows o o') :
    ¬ (prog.kind o).isTerminator := by
  refine h.inner _ (h.blockOf_lt ho) o ?_
  have hlt := (List.getElem?_eq_some_iff.mp hf).1
  refine List.mem_of_getElem? (i := (prog.op o).position) ?_
  rw [List.getElem?_dropLast, if_pos (by omega)]
  exact h.opAt?_self ho

theorem flow_next {o o' : OpId} (ho : o < prog.ops.size) (hf : prog.Follows o o')
    (hcall : ∀ f, (prog.kind o).callee? = some f → returns f ∨ prog.OnCycle (prog.blockOf o)) :
    prog.Flow returns o o' := by
  cases hk : (prog.kind o).callee? with
  | none => exact .next (h.not_isTerminator ho hf) hk hf
  | some f => exact .resume hk (hcall f hk) hf

/-- Control runs from one operation of a block to a later one if it comes back from the calls
between them. -/
theorem flow_forward {o o' : OpId} (ho : o < prog.ops.size) (ho' : o' < prog.ops.size)
    (hb : prog.blockOf o = prog.blockOf o') (hle : (prog.op o).position ≤ (prog.op o').position)
    (hcall : ∀ x < prog.ops.size, prog.blockOf x = prog.blockOf o' →
      (prog.op o).position ≤ (prog.op x).position → (prog.op x).position < (prog.op o').position →
      ∀ f, (prog.kind x).callee? = some f → returns f ∨ prog.OnCycle (prog.blockOf x)) :
    Relation.ReflTransGen (prog.Flow returns) o o' := by
  -- Induction on the distance between the two.
  obtain ⟨d, hd⟩ := Nat.exists_eq_add_of_le hle
  induction d generalizing o with
  | zero =>
    rw [h.op_ext ho ho' hb hd.symm]
  | succ d ih =>
    have hlt : (prog.op o).position + 1 < (prog.block (prog.blockOf o)).ops.length := by
      have := h.position_lt ho'
      rw [← hb] at this
      omega
    have hf : prog.Follows o (prog.block (prog.blockOf o)).ops[(prog.op o).position + 1] :=
      List.getElem?_eq_getElem hlt
    obtain ⟨hx, hxb, hxp⟩ := h.follows_iff.mp hf
    refine .head (h.flow_next ho hf (hcall o ho hb (Nat.le_refl _) (by omega))) ?_
    refine ih hx (hxb.trans hb) (by omega) (fun y hy hyb hle' hlt' => ?_) (by omega)
    exact hcall y hy hyb (by omega) hlt'

theorem exists_first {b : BlockId} (hb : b < prog.blocks.size) : ∃ o, prog.opAt? b 0 = some o := by
  cases ho : (prog.block b).ops with
  | nil => exact absurd ho (h.ops_ne b hb)
  | cons o os => exact ⟨o, by rw [opAt?, ho]; rfl⟩

theorem exists_branch {b s : BlockId} (hb : b < prog.blocks.size) (hs : prog.Succ b s) :
    ∃ o < prog.ops.size, prog.blockOf o = b ∧ prog.kind o = .terminator .branch ∧
      ∀ o' < prog.ops.size, prog.blockOf o' = b → (prog.op o').position ≤ (prog.op o).position := by
  obtain ⟨o, hlast, hk⟩ := h.last b hb
  obtain ⟨ho, hob⟩ := h.mem_ops.mp (List.mem_of_getLast? hlast)
  rw [List.getLast?_eq_getElem?] at hlast
  have hpos := ((h.op_iff b _ o).mp hlast).2.2
  refine ⟨o, ho, hob, ?_, fun o' ho' hob' => ?_⟩
  · rcases hk with hk | hk
    · exact hk.1
    · rw [Succ, hk.2] at hs
      cases hs
  · have := h.position_lt ho'
    rw [hob'] at this
    omega

theorem flow_succ {b s : BlockId} (hb : b < prog.blocks.size) (hc : prog.OnCycle b)
    (hs : prog.Succ b s) {o o' : OpId} (ho : o < prog.ops.size) (hob : prog.blockOf o = b)
    (ho' : prog.opAt? s 0 = some o') : Relation.TransGen (prog.Flow returns) o o' := by
  obtain ⟨t, ht, htb, hk, hlast⟩ := h.exists_branch hb hs
  refine .tail' (h.flow_forward ho ht (hob.trans htb.symm) (hlast o ho hob) ?_)
    (.branch hk (htb.symm ▸ hs) ho')
  intro x _ hxb _ _ f _
  exact .inr (hxb.trans htb ▸ hc)

theorem flow_cycle {b c : BlockId} (hb : b < prog.blocks.size)
    (hbc : Relation.TransGen prog.Succ b c) (hcb : Relation.ReflTransGen prog.Succ c b) {o o' : OpId}
    (ho : o < prog.ops.size) (hob : prog.blockOf o = b) (ho' : prog.opAt? c 0 = some o') :
    Relation.TransGen (prog.Flow returns) o o' := by
  induction hbc generalizing o' with
  | single hs => exact h.flow_succ hb (.head' hs hcb) hs ho hob ho'
  | @tail x y hbx hxy ih =>
    have hx := lt_of_succ hxy
    obtain ⟨t, ht⟩ := h.exists_first hx
    obtain ⟨htlt, htb, -⟩ := h.opAt?_iff.mp ht
    have hxb : Relation.ReflTransGen prog.Succ x b := .head hxy hcb
    have hcycle : prog.OnCycle x := .head' hxy (.trans hcb hbx.to_reflTransGen)
    exact (ih hxb ht).trans (h.flow_succ hx hcycle hxy htlt htb ho')

theorem flow_loop {o o' : OpId} (ho : o < prog.ops.size) (ho' : o' < prog.ops.size)
    (hoo' : Relation.TransGen prog.Succ (prog.blockOf o) (prog.blockOf o'))
    (ho'o : Relation.ReflTransGen prog.Succ (prog.blockOf o') (prog.blockOf o)) :
    Relation.TransGen (prog.Flow returns) o o' := by
  obtain ⟨t, ht⟩ := h.exists_first (h.blockOf_lt ho')
  obtain ⟨htlt, htb, htp⟩ := h.opAt?_iff.mp ht
  refine (h.flow_cycle (h.blockOf_lt ho) hoo' ho'o ho rfl ht).trans_left ?_
  refine h.flow_forward htlt ho' htb (by omega) fun x _ hxb _ _ f _ => .inr ?_
  rw [hxb]
  exact .trans_right ho'o hoo'

end Shaped

end YieldPlan.Program
