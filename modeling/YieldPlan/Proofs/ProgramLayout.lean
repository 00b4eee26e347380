import YieldPlan.Program.Printer
import YieldPlan.Proofs.ReachabilityExact

/-! A program of which all calls have targets is printed, and what is printed is one line for each
operation, in the order of procedures and blocks. -/

namespace YieldPlan

theorem Checked.mapM_ok {α β : Type} {f : α → Checked β} {g : α → β} {l : List α}
    (h : ∀ a ∈ l, f a = .ok (g a)) : l.mapM f = .ok (l.map g) := by
  induction l with
  | nil => rfl
  | cons a l ih =>
    obtain ⟨ha, hl⟩ := List.forall_mem_cons.mp h
    rw [List.mapM_cons, ha, ih hl]
    rfl

namespace Program

variable {prog : Program}

section Layout

variable (prog) (line : OpId → String)

def blockLayout (b : BlockId) : String :=
  s!"  {(prog.block b).name}:\n" ++ String.join ((prog.block b).ops.map line)

def procLayout (p : ProcId) : String :=
  let mark := if (prog.proc p).name = prog.entrypoint then "@main " else ""
  s!"{mark}proc {(prog.proc p).name} \x7b\n" ++
    String.join ((prog.proc p).blocks.map (prog.blockLayout line)) ++ "\x7d\n"

/-- The text of a program in which each operation has the given line. -/
def layout : String := "\n".intercalate (prog.procIds.map (prog.procLayout line))

/-- The operations in the order of their lines. -/
def listing : List OpId := prog.procIds.flatMap prog.procOps

end Layout

theorem Shaped.listing_perm (hs : prog.Shaped) : prog.listing.Perm prog.opIds := by
  refine (List.perm_ext_iff_of_nodup ?_ List.nodup_range).mpr fun o => ?_
  · have hblocks : ∀ p, (prog.procOps p).Nodup := by
      intro p
      refine List.nodup_flatMap.mpr ⟨fun b _ => hs.nodup_ops b, (hs.nodup p).imp ?_⟩
      intro b c hne o hb hc
      exact hne ((hs.mem_ops.mp hb).2.symm.trans (hs.mem_ops.mp hc).2)
    refine List.nodup_flatMap.mpr ⟨fun p _ => hblocks p, List.nodup_range.imp ?_⟩
    intro p q hne o hp hq
    rw [Reachability.mem_procOps hs] at hp hq
    exact hne (hp.2.symm.trans hq.2)
  · simp only [listing, procIds, List.mem_flatMap, List.mem_range, Reachability.mem_procOps hs]
    constructor
    · rintro ⟨p, -, ho, -⟩
      exact ho
    · intro ho
      exact ⟨prog.procOf o, hs.proc_lt _ (hs.blockOf_lt ho), ho, rfl⟩

theorem nameOf_ok {p : ProcId} (hp : p < prog.procs.size) :
    prog.nameOf p = .ok (prog.procName p) := by
  simp only [nameOf, procName, proc, proc?, Array.getElem?_eq_getElem hp]
  rfl

theorem Shaped.successorsText_ok (hs : prog.Shaped) {b : BlockId} (hb : b < prog.blocks.size) :
    ∃ text, prog.successorsText b = .ok text := by
  have hnames : (prog.block b).succs.mapM (fun s => do
      return (← Checked.index (prog.block? s)).name) =
        .ok ((prog.block b).succs.map fun s => (prog.block s).name) := by
    apply Checked.mapM_ok
    intro s hmem
    rw [block?_of_lt (hs.succ b hb s hmem).1]
    rfl
  rw [successorsText, hnames]
  exact ⟨_, rfl⟩

theorem libraryCallText_ok {c : LibraryCall}
    (hc : ∀ p, OpKind.callEdge? (.library c) = some p → p < prog.procs.size) :
    ∃ text, prog.libraryCallText c = .ok text := by
  have harg : ∃ arg, prog.argumentText c = .ok arg := by
    cases c with
    | threadCreate p => exact ⟨_, nameOf_ok (hc p rfl)⟩
    | _ => exact ⟨_, rfl⟩
  obtain ⟨arg, harg⟩ := harg
  cases c with
  | unknown name => exact ⟨_, rfl⟩
  | _ =>
    simp only [libraryCallText, harg]
    exact ⟨_, rfl⟩

section Printed

variable (hs : prog.Shaped)
  (htargets : ∀ o < prog.ops.size, ∀ f, (prog.kind o).callEdge? = some f → f < prog.procs.size)

include hs

include htargets in
theorem opText_ok {o : OpId} (ho : o < prog.ops.size) : ∃ text, prog.opText o = .ok text := by
  have hop : prog.op? o = some (prog.op o) := by simp [op, op?, ho]
  have hcalls := htargets o ho
  rw [opText, hop, Checked.index_some, Checked.ok_bind]
  unfold kind at hcalls
  cases hk : (prog.op o).kind with
  | call p =>
    rw [hk] at hcalls
    simp only [nameOf_ok (hcalls p rfl)]
    exact ⟨_, rfl⟩
  | library c =>
    rw [hk] at hcalls
    exact libraryCallText_ok hcalls
  | terminator k =>
    cases k with
    | ret => exact ⟨_, rfl⟩
    | branch => exact hs.successorsText_ok (hs.blockOf_lt ho)
  | _ => exact ⟨_, rfl⟩

theorem renderWith_ok {remark : OpId → Option String} {line : OpId → String}
    (hline : ∀ o < prog.ops.size, prog.opLine remark o = .ok (line o)) :
    prog.renderWith remark = .ok (prog.layout line) := by
  have hblock : ∀ b < prog.blocks.size,
      prog.blockText remark b = .ok (prog.blockLayout line b) := by
    intro b hb
    rw [blockText, block?_of_lt hb, Checked.index_some, Checked.ok_bind,
      Checked.mapM_ok fun o ho => hline o (hs.mem_ops.mp ho).1]
    rfl
  have hproc : ∀ p, prog.procText remark p = .ok (prog.procLayout line p) := by
    intro p
    rw [procText, Checked.mapM_ok fun b hb => hblock b ((hs.block_iff p b).mp hb).1]
    rfl
  rw [renderWith, Checked.mapM_ok fun p _ => hproc p]
  rfl

end Printed

end Program

end YieldPlan
