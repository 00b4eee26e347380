import YieldPlan.Proofs.CallOrder
import YieldPlan.Proofs.ClosedWalks
import YieldPlan.Proofs.LockFlow

/-! Loops whose end does not show in their form are given a bound. None of the bounds decides a
result: a loop that is given a greater one comes out the same, whether it answers or fails. The
variants are the nodes that a search has yet to meet, the blocks that a chain of hops has yet to
pass, the explorations that a walk has left, and the locks that a flow can still drop. -/

namespace YieldPlan

namespace Graph

variable {α : Type} [DecidableEq α] {nodes : List α} {next : α → List α}

theorem seen_visit (next : α → List α) (fuel : Nat) (s : Search α) (v : α) :
    ∀ u ∈ s.seen, u ∈ (visit next fuel s v).seen := by
  induction fuel generalizing s v with
  | zero => exact fun _ hu => hu
  | succ fuel ih =>
    intro u hu
    rw [visit]
    split
    · exact hu
    · refine List.foldlRecOn (motive := fun t => u ∈ Search.seen t) _ _
        (List.mem_cons_of_mem v hu) fun t ht w _ => ih t w u ht

theorem visit_congr (hclosed : ∀ v ∈ nodes, ∀ w ∈ next v, w ∈ nodes) {m n : Nat} {s : Search α}
    {v : α} (hv : v ∈ nodes) (hm : s.unseen nodes ≤ m) (hn : s.unseen nodes ≤ n) :
    visit next m s v = visit next n s v := by
  induction m generalizing n s v with
  | zero =>
    have hseen : v ∈ s.seen := by
      by_contra hnew
      exact absurd (Search.unseen_lt hv hnew) (by omega)
    cases n with
    | zero => rfl
    | succ n => rw [visit, visit, if_pos hseen]
  | succ m ih =>
    by_cases hseen : v ∈ s.seen
    · cases n with
      | zero => rw [visit, visit, if_pos hseen]
      | succ n => rw [visit, visit, if_pos hseen, if_pos hseen]
    · have hlt := Search.unseen_lt hv hseen
      obtain ⟨n, rfl⟩ : ∃ k, n = k + 1 := ⟨n - 1, by omega⟩
      have hfold : ∀ (vs : List α) (t : Search α), (∀ w ∈ vs, w ∈ nodes) → t.unseen nodes ≤ m →
          t.unseen nodes ≤ n → vs.foldl (visit next m) t = vs.foldl (visit next n) t := by
        intro vs
        induction vs with
        | nil => exact fun _ _ _ _ => rfl
        | cons w vs ihvs =>
          intro t hvs hm hn
          obtain ⟨hw, hvs⟩ := List.forall_mem_cons.mp hvs
          have hless : (visit next n t w).unseen nodes ≤ t.unseen nodes :=
            Search.unseen_le (seen_visit next n t w)
          rw [List.foldl_cons, List.foldl_cons, ih hw hm hn]
          exact ihvs _ hvs (by omega) (by omega)
      rw [visit, visit, if_neg hseen, if_neg hseen,
        hfold _ _ (hclosed v hv) (by omega) (by omega)]

/-- From any of the nodes, a search comes out the same however far beyond the bound it may go. -/
def Ample (nodes : List α) (next : α → List α) (bound : Nat) : Prop :=
  ∀ n, bound ≤ n → ∀ s, ∀ v ∈ nodes, visit next n s v = visit next bound s v

theorem ample (hclosed : ∀ v ∈ nodes, ∀ w ∈ next v, w ∈ nodes) : Ample nodes next nodes.length :=
  fun _ hn s _ hv =>
    have hunseen : s.unseen nodes ≤ nodes.length := List.length_filter_le _ _
    visit_congr hclosed hv (hunseen.trans hn) hunseen

end Graph

namespace Program

variable {prog : Program}

private theorem length_le_of_nodup {n : Nat} {l : List Nat} (hnd : l.Nodup)
    (hlt : ∀ x ∈ l, x < n) : l.length ≤ n := by
  have hsub := (hnd.subperm fun x hx => List.mem_range.mpr (hlt x hx)).length_le
  rwa [List.length_range] at hsub

theorem skipHops_congr (hs : prog.Shaped) {m n : Nat} {seen : List BlockId} {b : BlockId}
    (hb : b < prog.blocks.size) (hseen : ∀ c ∈ seen, c < prog.blocks.size) (hnd : seen.Nodup)
    (hm : prog.blocks.size < seen.length + m) (hn : prog.blocks.size < seen.length + n) :
    prog.skipHops m seen b = prog.skipHops n seen b := by
  induction m generalizing n seen b with
  | zero =>
    have hlen := length_le_of_nodup hnd hseen
    omega
  | succ m ih =>
    have hlen := length_le_of_nodup hnd hseen
    obtain ⟨n, rfl⟩ : ∃ k, n = k + 1 := ⟨n - 1, by omega⟩
    rw [skipHops, skipHops]
    split
    · rfl
    · next hnew =>
      split
      · next s hhop =>
        refine ih ((hs.hops_ok hb (.single hhop)).1) (List.forall_mem_cons.mpr ⟨hb, hseen⟩)
          (List.nodup_cons.mpr ⟨hnew, hnd⟩) ?_ ?_
        · rw [List.length_cons]
          omega
        · rw [List.length_cons]
          omega
      · rfl

end Program

namespace AtomicRegion

variable {prog : Program}

theorem runOps_depth {maxDepth depth d : Nat} {ops : List OpId} (hdepth : depth ≤ maxDepth)
    (h : d ∈ (runOps prog maxDepth depth ops).branches) : d ≤ maxDepth := by
  induction ops generalizing depth with
  | nil => cases h
  | cons o rest ih =>
    unfold runOps at h
    split at h
    · split at h
      · cases h
      · next hmax => exact ih (Nat.le_of_not_lt hmax) h
    · split at h
      · cases h
      · exact ih (Nat.le_of_succ_le hdepth) h
    · cases h
    · rcases List.mem_cons.mp h with rfl | h
      · exact hdepth
      · exact ih hdepth h
    · exact ih hdepth h

theorem exists_positions (hs : prog.Shaped) {start : OpId} (ho : start < prog.ops.size)
    (maxDepth : Nat) : ∃ nodes : List Position, (prog.pointAfter start, 0) ∈ nodes ∧
      nodes.length = (maxDepth + 1) * ((prog.proc (prog.procOf start)).blocks.length + 1) ∧
      ∀ s ∈ nodes, ∀ s' ∈ next prog maxDepth s, s' ∈ nodes := by
  let blocks := (prog.proc (prog.procOf start)).blocks
  let points := prog.pointAfter start :: blocks.map Point.entry
  have hhome : ∀ q ∈ points, q.block ∈ blocks := by
    refine List.forall_mem_cons.mpr ⟨(hs.block_iff _ _).mpr ⟨hs.blockOf_lt ho, rfl⟩, ?_⟩
    intro q hq
    obtain ⟨b, hb, rfl⟩ := List.mem_map.mp hq
    exact hb
  refine ⟨points ×ˢ List.range (maxDepth + 1), ?_, ?_, ?_⟩
  · exact List.pair_mem_product.mpr ⟨List.mem_cons_self, List.mem_range.mpr (Nat.succ_pos _)⟩
  · simp only [points]
    rw [List.length_product, List.length_cons, List.length_map, List.length_range, Nat.mul_comm]
  · rintro ⟨q, d⟩ hq r hr
    obtain ⟨hq, hd⟩ := List.pair_mem_product.mp hq
    obtain ⟨depth, hbranch, b, hb, rfl⟩ := mem_next.mp hr
    obtain ⟨hlt, hproc⟩ := (hs.block_iff _ _).mp (hhome q hq)
    obtain ⟨hblt, hbproc⟩ := hs.succ _ hlt b hb
    have hdepth := runOps_depth (Nat.le_of_lt_succ (List.mem_range.mp hd)) hbranch
    refine List.pair_mem_product.mpr ⟨List.mem_cons_of_mem _ (List.mem_map.mpr ⟨b, ?_, rfl⟩),
      List.mem_range.mpr (Nat.lt_succ_of_le hdepth)⟩
    exact (hs.block_iff _ _).mpr ⟨hblt, hbproc.trans hproc⟩

/-- Inside the region control comes to this run. -/
def Met (prog : Program) (start : OpId) (r : Run) : Prop :=
  let maxDepth := (prog.procOps (prog.procOf start)).length
  ∃ s, Graph.Reaches (next prog maxDepth) (prog.pointAfter start, 0) s ∧ runAt prog maxDepth s = r

/-- The scan of a region sees exactly the runs that control comes to. -/
theorem mem_runs (hs : prog.Shaped) {start : OpId} (ho : start < prog.ops.size) {r : Run} :
    r ∈ runs prog start ↔ Met prog start r := by
  obtain ⟨nodes, hfirst, hlength, hclosed⟩ :=
    exists_positions hs ho (prog.procOps (prog.procOf start)).length
  simp only [runs, Met, List.mem_map, ← hlength, Graph.mem_reachableFrom hclosed hfirst]

end AtomicRegion

namespace Walk

variable {σ : Type} {prog : Program} {P : Processor σ}

theorem drain_congr {next next' : Action (Walk σ) Unit} {m n : Nat} {w : Walk σ}
    (hnext : ∀ v, potential prog v < potential prog w → next v = next' v)
    (hm : weight w.stack < m) (hn : weight w.stack < n) :
    drain prog P next m w = drain prog P next' n w := by
  induction m generalizing n w with
  | zero => omega
  | succ m ih =>
    obtain ⟨n, rfl⟩ : ∃ k, n = k + 1 := ⟨n - 1, by omega⟩
    rw [drain, drain]
    show EStateM.bind (step prog P) _ w = EStateM.bind (step prog P) _ w
    unfold EStateM.bind
    cases hstep : step prog P w with
    | error e v => rfl
    | ok pr v =>
      have hv := step_progress hstep
      cases pr with
      | done => rfl
      | moved =>
        obtain ⟨hweight, hsame⟩ := hv
        exact ih (fun u hu => hnext u (hsame ▸ hu)) (by omega) (by omega)
      | explored => exact hnext v hv

theorem run_congr {m n : Nat} {w : Walk σ} (hm : potential prog w < m)
    (hn : potential prog w < n) : run prog P m w = run prog P n w := by
  induction m generalizing n w with
  | zero => omega
  | succ m ih =>
    obtain ⟨n, rfl⟩ : ∃ k, n = k + 1 := ⟨n - 1, by omega⟩
    exact drain_congr (fun v hv => ih (by omega) (by omega)) (Nat.lt_succ_self _)
      (Nat.lt_succ_self _)

end Walk

theorem LockSets.Flow.run_congr {prog : Program} {release : Table ProcId Release} {m n : Nat}
    {f : Flow} (hdone : (run prog release m f).pending = []) (hle : m ≤ n) :
    run prog release n f = run prog release m f := by
  induction m generalizing n f with
  | zero =>
    have hempty : f.pending.isEmpty := List.isEmpty_iff.mpr hdone
    cases n with
    | zero => rfl
    | succ n =>
      rw [run, run, if_pos hempty]
  | succ m ih =>
    obtain ⟨n, rfl⟩ : ∃ k, n = k + 1 := ⟨n - 1, by omega⟩
    rw [run] at hdone
    rw [run, run]
    split at hdone
    · next hempty => rw [if_pos hempty, if_pos hempty]
    · next hempty =>
      rw [if_neg hempty, if_neg hempty]
      exact ih hdone (Nat.le_of_succ_le_succ hle)

/-- Every loop that works on the program comes out the same however far beyond its bound it may go:
searches, chains of hops, flows of lock sets, and walks, each with the steps between explorations. -/
structure Program.AmpleBounds (prog : Program) : Prop where
  calls : Graph.Ample prog.procIds prog.calls.targets prog.procs.size
  blocks : ∀ p < prog.procs.size, Graph.Ample (prog.proc p).blocks
    (fun b => (prog.block b).succs.reverse) (prog.proc p).blocks.length
  regions : ∀ o < prog.ops.size, ∀ maxDepth, Graph.Ample [(prog.pointAfter o, 0)]
    (AtomicRegion.next prog maxDepth)
    ((maxDepth + 1) * ((prog.proc (prog.procOf o)).blocks.length + 1))
  continuations : ∀ next : OpId → List OpId,
    (∀ o < prog.ops.size, ∀ c ∈ next o, c < prog.ops.size) →
      Graph.Ample prog.opIds next prog.ops.size
  hops : ∀ p < prog.procs.size, ∀ n, prog.blocks.size + 1 ≤ n →
    prog.skipHops n [] (prog.entryBlock p) =
      prog.skipHops (prog.blocks.size + 1) [] (prog.entryBlock p)
  flows : ∀ release, ∀ p < prog.procs.size, ∀ entry : LockSet, entry.Nodup →
    ∀ n, LockSets.flowFuel prog p entry ≤ n →
      LockSets.Flow.run prog release n (.initial prog p entry) =
        LockSets.Flow.run prog release (LockSets.flowFuel prog p entry) (.initial prog p entry)
  walks : ∀ {σ : Type} (P : Processor σ) (w : Walk σ) (n : Nat), 2 * prog.pointCount + 1 ≤ n →
    Walk.run prog P n w = Walk.run prog P (2 * prog.pointCount + 1) w
  steps : ∀ {σ : Type} (P : Processor σ) (next : Action (Walk σ) Unit) (w : Walk σ) (n : Nat),
    Walk.weight w.stack + 1 ≤ n →
      Walk.drain prog P next n w = Walk.drain prog P next (Walk.weight w.stack + 1) w

theorem Program.ampleBounds {prog : Program} (hs : prog.Shaped)
    (htargets : ∀ o < prog.ops.size, ∀ f, (prog.kind o).callEdge? = some f → f < prog.procs.size) :
    prog.AmpleBounds where
  calls := by
    have hample := Graph.ample (CallGraph.targets_closed htargets)
    rwa [List.length_range] at hample
  blocks p hp := by
    refine Graph.ample fun b hb s hsucc => ?_
    obtain ⟨hlt, hproc⟩ := (hs.block_iff p b).mp hb
    obtain ⟨hslt, hsproc⟩ := hs.succ b hlt s (List.mem_reverse.mp hsucc)
    exact (hs.block_iff p s).mpr ⟨hslt, hsproc.trans hproc⟩
  regions o ho maxDepth := by
    obtain ⟨nodes, hfirst, hlength, hclosed⟩ := AtomicRegion.exists_positions hs ho maxDepth
    rw [← hlength]
    intro n hn s v hv
    exact Graph.ample hclosed n hn s v (List.mem_singleton.mp hv ▸ hfirst)
  continuations next hnext := by
    have hclosed : ∀ o ∈ prog.opIds, ∀ c ∈ next o, c ∈ prog.opIds := fun o ho c hc =>
      List.mem_range.mpr (hnext o (List.mem_range.mp ho) c hc)
    have hample := Graph.ample hclosed
    rwa [opIds, List.length_range] at hample
  hops p hp n hn := by
    refine skipHops_congr hs (hs.entry_ok hp).2.2.2.1 (by simp) List.nodup_nil ?_ ?_
    · rw [List.length_nil, Nat.zero_add]
      exact hn
    · rw [List.length_nil, Nat.zero_add]
      exact Nat.lt_succ_self _
  flows release p hp entry hnd n hn := by
    obtain ⟨-, -, -, hdone⟩ := LockSets.Flow.run_initial release hs hp hnd
    exact LockSets.Flow.run_congr hdone hn
  walks P w n hn := by
    have hpotential := Walk.potential_le prog w
    exact Walk.run_congr (by omega) (by omega)
  steps P next w n hn := Walk.drain_congr (fun _ _ => rfl) hn (Nat.lt_succ_self _)

end YieldPlan
