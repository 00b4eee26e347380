import YieldPlan.Analysis
import YieldPlan.Proofs.ReachabilityExact

/-! An analysis that succeeds has passed all its stages, so the program has the right shape, its
targets exist and it has no recursion. The order of its procedures puts callees first, and
reachability is exact. -/

namespace YieldPlan

/-- Every stage gave its part of the analysis. -/
structure Analyzed (prog : Program) (mayAlias : AliasOracle) (cx : Analysis) : Prop where
  prog_eq : cx.prog = prog
  validate : prog.validate = .ok ()
  main : ∃ p, prog.main = .ok p
  callGraph : prog.callGraph = .ok prog.calls
  order : prog.calls.postOrder prog = .ok cx.order
  reach : (prog.reachability cx.order).result = .ok cx.reach
  threads : (prog.threads prog.calls cx.order cx.reach).result = .ok cx.threads
  ownership : (prog.ownership cx.reach cx.threads mayAlias).result = .ok cx.ownership
  locks : prog.lockSets cx.order = .ok cx.locks
  conflicts : (prog.conflicts cx.threads cx.ownership cx.locks mayAlias).result = .ok cx.conflicts
  movability : (prog.movability cx.order cx.threads cx.conflicts).result = .ok cx.movability

variable {prog : Program} {mayAlias : AliasOracle} {cx : Analysis}

theorem Program.of_checkWellFormed (h : prog.checkWellFormed.result = .ok ()) :
    prog.validate = .ok () ∧ ∃ p, prog.main = .ok p := by
  simp only [checkWellFormed, Traced.result_bind] at h
  obtain ⟨⟨⟩, hv, h⟩ := Checked.bind_ok.mp h
  obtain ⟨p, hp, -⟩ := Checked.bind_ok.mp h
  exact ⟨hv, p, hp⟩

theorem Program.analyze_ok (h : (prog.analyze mayAlias).result = .ok cx) :
    Analyzed prog mayAlias cx := by
  simp only [Program.analyze, Traced.result_bind] at h
  obtain ⟨⟨⟩, hwf, h⟩ := Checked.bind_ok.mp h
  obtain ⟨g, hg, h⟩ := Checked.bind_ok.mp h
  obtain ⟨order, horder, h⟩ := Checked.bind_ok.mp h
  obtain ⟨r, hr, h⟩ := Checked.bind_ok.mp h
  obtain ⟨ts, hts, h⟩ := Checked.bind_ok.mp h
  obtain ⟨own, hown, h⟩ := Checked.bind_ok.mp h
  obtain ⟨locks, hlocks, h⟩ := Checked.bind_ok.mp h
  obtain ⟨conflicts, hconflicts, h⟩ := Checked.bind_ok.mp h
  obtain ⟨m, hm, h⟩ := Checked.bind_ok.mp h
  cases h
  obtain ⟨hv, hmain⟩ := of_checkWellFormed hwf
  obtain rfl := (of_callGraph hg).1
  exact ⟨rfl, hv, hmain, hg, horder, hr, hts, hown, hlocks, hconflicts, hm⟩

theorem Table.mem_of_get? {κ ν : Type} [DecidableEq κ] {t : Table κ ν} {k : κ} {v : ν}
    (h : t.get? k = some v) : (k, v) ∈ t.entries := by
  obtain ⟨before, after, hsplit, -⟩ := List.lookup_eq_some_iff.mp h
  rw [hsplit]
  simp

/-- Only memory operations have conflicts, those that some thread finds for them, in order. -/
theorem Program.conflicts_ok {ts : Threads} {own : Ownership} {locks : LockSets} {c : Conflicts}
    (h : (prog.conflicts ts own locks mayAlias).result = .ok c) :
    (∀ o, c.owner? o = own.owner? o) ∧ ∀ o found, c.table.get? o = some found →
      (prog.kind o).isMemory = true ∧
        ∃ t, found = Conflicts.find prog ts own locks mayAlias o t := by
  simp only [Program.conflicts, Traced.result_bind] at h
  obtain ⟨_, -, h⟩ := Checked.bind_ok.mp h
  cases h
  refine ⟨fun _ => rfl, fun o found hget => ?_⟩
  obtain ⟨x, -, hx⟩ := List.mem_filterMap.mp (Table.mem_of_get? hget)
  unfold Conflicts.entry? at hx
  split at hx
  · next t _ =>
    split at hx
    · next hmemory =>
      split at hx
      · cases hx
      · obtain ⟨rfl, rfl⟩ := Prod.mk.inj (Option.some.inj hx)
        exact ⟨hmemory, t, rfl⟩
    · cases hx
  · cases hx

namespace Analyzed

variable (h : Analyzed prog mayAlias cx)

include h

theorem targets : ∀ o < prog.ops.size, ∀ f, (prog.kind o).callEdge? = some f →
    f < prog.procs.size := (Program.of_callGraph h.callGraph).2

theorem acyclic (hc : prog.Coherent) (p : ProcId) : ¬ Relation.TransGen prog.Calls p p :=
  CallGraph.acyclic_of_postOrder hc h.targets h.order p

theorem order_spec (hc : prog.Coherent) : cx.order.Nodup ∧
    (∀ p, p ∈ cx.order ↔ p < prog.procs.size) ∧
    ∀ before p after, cx.order = before ++ p :: after → ∀ q, prog.Calls p q → q ∈ before := by
  obtain ⟨order, horder, hspec⟩ := CallGraph.postOrder_ok h.targets (h.acyclic hc)
  obtain rfl := Except.ok.inj (h.order.symm.trans horder)
  exact hspec

theorem callers_after (hc : prog.Coherent) {before after : List ProcId} {p q : ProcId}
    (hsplit : cx.order = before ++ p :: after) (hq : prog.Calls q p) : q ∈ after := by
  obtain ⟨hnd, hmem, hcallees⟩ := h.order_spec hc
  refine CallGraph.callers_after hnd hcallees hsplit ((hmem q).mpr ?_) hq
  obtain ⟨o, ho, rfl, -⟩ := hq
  exact hc.procOf_lt o ho

theorem shaped (hc : prog.Coherent) : prog.Shaped := hc.shaped h.validate

theorem built_reach (hc : prog.Coherent) (hsize : prog.ops.size ≤ BitMatrix.maxRows) :
    (∀ a < prog.ops.size, ∀ b < prog.ops.size, ∃ ans, cx.reach.query prog a b = .ok ans ∧
      (ans = true ↔ Relation.TransGen (prog.Flow fun f => cx.reach.mayReturn f = true) a b)) ∧
    ∀ f < prog.procs.size, cx.reach.mayReturn f = true ↔
      Reachability.Returns prog (fun f => cx.reach.mayReturn f = true) f := by
  have hs := h.shaped hc
  obtain ⟨order, r, horder, hr, hat, hblock, hreturns⟩ :=
    Reachability.reachability_ok hs h.targets (h.acyclic hc) hsize
  obtain rfl := Except.ok.inj (h.order.symm.trans horder)
  obtain rfl := Except.ok.inj (h.reach.symm.trans hr)
  refine ⟨fun a ha b hb => ?_, hreturns⟩
  obtain ⟨ans, hans, hiff⟩ := Reachability.query_ok hat.ops ⟨ha, hblock _ (hs.blockOf_lt ha)⟩
    ⟨hb, hblock _ (hs.blockOf_lt hb)⟩
  exact ⟨ans, hans, hiff _ (Reachability.agrees_mayReturn cx.reach)⟩

theorem reach_iff (hc : prog.Coherent) (hsize : prog.ops.size ≤ BitMatrix.maxRows) {a b : OpId}
    (ha : a < prog.ops.size) (hb : b < prog.ops.size) : cx.reach.reach prog a b = true ↔
      Relation.TransGen (prog.Flow fun f => cx.reach.mayReturn f = true) a b := by
  obtain ⟨ans, hans, hiff⟩ := (h.built_reach hc hsize).1 a ha b hb
  rw [Reachability.reach, hans]
  exact hiff

theorem returns (hc : prog.Coherent) (hsize : prog.ops.size ≤ BitMatrix.maxRows) :
    ∀ f < prog.procs.size, Reachability.Returns prog (fun f => cx.reach.mayReturn f = true) f →
      cx.reach.mayReturn f = true := fun f hf => ((h.built_reach hc hsize).2 f hf).mpr

end Analyzed

end YieldPlan
