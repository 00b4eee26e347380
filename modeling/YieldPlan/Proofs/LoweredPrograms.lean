import YieldPlan.Proofs.ControlFlow

/-! A callee and the target of a thread creation are looked up among the procedures of the
description, so no operation of a lowered program enters a procedure that is missing. No options are
set either. -/

namespace YieldPlan

structure Program.Resolved (n : Nat) (prog : Program) : Prop where
  target : ∀ o < prog.ops.size, ∀ f, (prog.kind o).callEdge? = some f → f < n
  options : prog.extraOptions = []

namespace Lowering

open Program

variable {prog q : Program} {n : Nat} {procs : List String}

theorem resolved_push (h : prog.Resolved n) (b : BlockId) {kind : OpKind}
    (hkind : ∀ f, kind.callEdge? = some f → f < n) : (prog.push b kind).Resolved n where
  target o ho f hf := by
    have hle : o ≤ prog.ops.size := by simpa [Program.push, Nat.lt_succ_iff] using ho
    rw [Program.kind, op_push] at hf
    split at hf
    · exact hkind f hf
    · next hne =>
      exact h.target o (Nat.lt_of_le_of_ne hle hne) f hf
  options := h.options

theorem resolved_branch (h : prog.Resolved n) (b : BlockId) (succs : List BlockId) :
    (prog.branch b succs).Resolved n := by
  have hretarget : (prog.retarget b succs).Resolved n := ⟨h.target, h.options⟩
  exact resolved_push hretarget b (by simp [OpKind.callEdge?])

theorem libraryCall_target {name : String} {arg : Option String} {call : LibraryCall}
    (h : libraryCall procs name arg = .ok call) {f : ProcId}
    (hf : (OpKind.library call).callEdge? = some f) : f < procs.length := by
  unfold libraryCall at h
  dsimp only at h
  split at h
  case h_2 =>
    split at h
    · next target hfound =>
      cases h
      cases hf
      obtain ⟨a, -, ha⟩ := Option.bind_eq_some_iff.mp hfound
      exact (List.findIdx?_eq_some_iff_getElem.mp ha).1
    · cases h
  all_goals
    cases h
    simp [OpKind.callEdge?] at hf

theorem operation_target {o : OperationDesc} {kind : OpKind} (h : operation procs o = .ok kind)
    {f : ProcId} (hf : kind.callEdge? = some f) : f < procs.length := by
  cases o with
  | call callee arg =>
    rw [operation] at h
    split at h
    · next p hfound =>
      cases h
      cases hf
      exact (List.findIdx?_eq_some_iff_getElem.mp hfound).1
    · obtain ⟨call, hcall, h⟩ := Checked.bind_ok.mp h
      cases h
      exact libraryCall_target hcall hf
  | _ =>
    cases h
    simp [OpKind.callEdge?] at hf

theorem resolved_body {b : BlockId} {ops : List OperationDesc}
    (h : body procs b prog ops = .ok q) (hp : prog.Resolved procs.length) :
    q.Resolved procs.length := by
  induction ops generalizing prog with
  | nil => cases h; exact hp
  | cons o rest ih =>
    rw [body] at h
    obtain ⟨kind, hkind, h⟩ := Checked.bind_ok.mp h
    exact ih h (resolved_push hp b fun f hf => operation_target hkind hf)

theorem resolved_terminate {proc : String} {blocks : List String} {base b : BlockId}
    {d : BlockDesc} (h : terminate proc blocks base b d prog = .ok q) (hp : prog.Resolved n) :
    q.Resolved n := by
  rw [terminate] at h
  split at h
  · cases h
    exact resolved_push hp b (by simp [OpKind.callEdge?])
  · obtain ⟨succs, -, h⟩ := Checked.bind_ok.mp h
    cases h
    exact resolved_branch hp b succs

theorem resolved_fillBlocks {proc : String} {blocks : List String} {base b : BlockId}
    {ds : List BlockDesc} (h : fillBlocks procs proc blocks base b prog ds = .ok q)
    (hp : prog.Resolved procs.length) : q.Resolved procs.length := by
  induction ds generalizing b prog with
  | nil => cases h; exact hp
  | cons d rest ih =>
    rw [fillBlocks] at h
    obtain ⟨q₁, h₁, h⟩ := Checked.bind_ok.mp h
    obtain ⟨q₂, h₂, h⟩ := Checked.bind_ok.mp h
    exact ih h (resolved_terminate h₂ (resolved_body h₁ hp))

theorem resolved_declareBlocks {p : ProcId} (names : List String) (h : prog.Resolved n) :
    (names.foldl (fun q name => q.addBlock p name) prog).Resolved n := by
  induction names generalizing prog with
  | nil => exact h
  | cons name names ih => exact ih ⟨h.target, h.options⟩

theorem resolved_procedure {p : ProcId} {d : ProcedureDesc}
    (h : procedure procs p prog d = .ok q) (hp : prog.Resolved procs.length) :
    q.Resolved procs.length := by
  rw [procedure] at h
  split at h
  · cases h
  · dsimp only at h
    split at h
    · cases h
    · exact resolved_fillBlocks h (resolved_declareBlocks _ hp)

theorem resolved_procedures {p : ProcId} {ds : List ProcedureDesc}
    (h : procedures procs p prog ds = .ok q) (hc : prog.Coherent)
    (hlt : p + ds.length ≤ prog.procs.size) (hp : prog.Resolved procs.length) :
    q.Resolved procs.length ∧ q.procs.size = prog.procs.size := by
  induction ds generalizing p prog with
  | nil => cases h; exact ⟨hp, rfl⟩
  | cons d rest ih =>
    rw [procedures] at h
    obtain ⟨q₁, h₁, h⟩ := Checked.bind_ok.mp h
    rw [List.length_cons] at hlt
    have hp' : p < prog.procs.size :=
      Nat.lt_of_lt_of_le (Nat.lt_add_of_pos_right (Nat.succ_pos _)) hlt
    obtain ⟨hc₁, hsize⟩ := procedure_coherent hc hp' h₁
    have hrest : p + 1 + rest.length ≤ q₁.procs.size := by
      rw [hsize, Nat.succ_add_eq_add_succ]
      exact hlt
    obtain ⟨hresolved, hsame⟩ := ih h hc₁ hrest (resolved_procedure h₁ hp)
    exact ⟨hresolved, hsame.trans hsize⟩

theorem resolved_declare (names : List String) (h : prog.Resolved n) :
    (names.foldl Program.addProc prog).Resolved n := by
  induction names generalizing prog with
  | nil => exact h
  | cons name names ih => exact ih ⟨h.target, h.options⟩

end Lowering

theorem Description.lower_ok {d : Description} {prog : Program} (h : d.lower = .ok prog) :
    prog.Built ∧ prog.Resolved prog.procs.size := by
  refine ⟨.inr ⟨d, h⟩, ?_⟩
  simp only [Description.lower] at h
  split at h
  · cases h
  obtain ⟨q, hq, hfinish⟩ := Checked.bind_ok.mp h
  obtain ⟨rfl, -⟩ := Program.finish_ok hfinish
  obtain ⟨hc, hsize⟩ := Lowering.declare_coherent (d.procedures.map (·.name))
    (Program.coherent_empty d.main)
  have hempty : Program.Resolved (d.procedures.map (·.name)).length { entrypoint := d.main } :=
    ⟨fun o ho => by simp at ho, rfl⟩
  have hdeclared := Lowering.resolved_declare (d.procedures.map (·.name)) hempty
  obtain ⟨hresolved, hsame⟩ := Lowering.resolved_procedures hq hc (by rw [hsize]; simp) hdeclared
  have hprocs : q.procs.size = (d.procedures.map (·.name)).length := by
    rw [hsame, hsize]
    simp
  rw [hprocs]
  exact hresolved

end YieldPlan
