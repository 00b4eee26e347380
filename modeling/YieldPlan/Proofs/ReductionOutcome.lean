import YieldPlan.Proofs.AnalysisOutcome

/-! Phase tracking meets live points only and files requests at operations of the program, so it
fails only where a region does not close. A lowered program is therefore reduced, or the failure
names a precondition that it violates; no index is out of range and no internal check fails. -/

namespace YieldPlan

variable {prog : Program}

namespace AtomicRegion

/-- The operations and ends of a region are of the program, and it is left behind its ends. -/
structure InRange (prog : Program) (region : AtomicRegion) : Prop where
  ops : ∀ o ∈ region.ops, o < prog.ops.size
  ends : ∀ e ∈ region.ends, e < prog.ops.size ∧ prog.kind e = .library .atomicEnd
  exits : region.exits = region.ends.map prog.pointAfter

theorem InRange.live_exits (hs : prog.Shaped) {region : AtomicRegion} (h : region.InRange prog) :
    ∀ q ∈ region.exits, q.Live prog := by
  rw [h.exits]
  intro q hq
  obtain ⟨e, he, rfl⟩ := List.mem_map.mp hq
  obtain ⟨hlt, hk⟩ := h.ends e he
  exact hs.live_after hlt (by simp [hk, OpKind.isTerminator])

theorem mem_runOps {maxDepth depth : Nat} {ops : List OpId} :
    (∀ o ∈ (runOps prog maxDepth depth ops).inside, o ∈ ops) ∧
      ∀ o, (runOps prog maxDepth depth ops).outcome = .closed o → o ∈ ops := by
  induction ops generalizing depth with
  | nil => simp [runOps]
  | cons x rest ih =>
    have hlater : ∀ {r : Run}, (∀ o ∈ r.inside, o ∈ rest) ∧ (∀ o, r.outcome = .closed o → o ∈ rest) →
        (∀ o ∈ r.inside, o ∈ x :: rest) ∧ ∀ o, r.outcome = .closed o → o ∈ x :: rest :=
      fun h => ⟨fun o ho => List.mem_cons_of_mem _ (h.1 o ho),
        fun o ho => List.mem_cons_of_mem _ (h.2 o ho)⟩
    have hadd : ∀ o ∈ x :: (runOps prog maxDepth depth rest).inside, o ∈ x :: rest :=
      fun o ho => List.mem_cons.mpr ((List.mem_cons.mp ho).imp_right (ih.1 o))
    unfold runOps
    split
    · split
      · simp
      · exact hlater ih
    · split
      · simp
      · exact hlater ih
    · simp
    · exact ⟨hadd, (hlater ih).2⟩
    · exact ⟨hadd, (hlater ih).2⟩

theorem lt_of_runAt (hs : prog.Shaped) {maxDepth : Nat} {s : Position} {o : OpId}
    (h : o ∈ (runAt prog maxDepth s).inside ∨ (runAt prog maxDepth s).outcome = .closed o) :
    o < prog.ops.size := by
  have hmem : o ∈ (s.1.ops? prog).getD [] := by
    rcases h with h | h
    · exact mem_runOps.1 o h
    · exact mem_runOps.2 o h
  cases hops : s.1.ops? prog with
  | none =>
    rw [hops] at hmem
    cases hmem
  | some ops =>
    rw [hops, Option.getD_some, (Program.ops?_eq hops).1] at hmem
    exact (hs.mem_ops.mp (List.mem_of_mem_drop hmem)).1

theorem scan_ends (hs : prog.Shaped) {m : Movability} {start : OpId}
    (ho : start < prog.ops.size) (hk : prog.kind start = .library .atomicBegin) :
    (scan prog m start).Ends (InRange prog) (Violates prog) := by
  cases hscan : scan prog m start with
  | error e =>
    obtain ⟨⟨note, rfl⟩, hopen⟩ := scan_fails ho hscan
    refine Violates.unmatchedAtomic ho hk (hopen.imp ?_ ?_)
    · rintro ⟨r, hr, hunmatched⟩
      exact ⟨r, (mem_runs hs ho).mp hr, hunmatched⟩
    · intro hnone r hr
      exact hnone r ((mem_runs hs ho).mpr hr)
  | ok region =>
    obtain ⟨hends, hexits⟩ := scan_ok hscan
    refine ⟨fun o ho => ?_, fun e he => ⟨?_, hends e he⟩, hexits⟩
    · rw [(scan_parts hscan).2.1] at ho
      obtain ⟨run, hrun, ho⟩ := List.mem_flatMap.mp (mem_sortNats.mp ho)
      obtain ⟨s, -, rfl⟩ := List.mem_map.mp hrun
      exact lt_of_runAt hs (.inl ho)
    · obtain ⟨run, hrun, hclosed⟩ := closed_of_mem_ends hscan he
      obtain ⟨s, -, rfl⟩ := List.mem_map.mp hrun
      exact lt_of_runAt hs (.inr hclosed)

end AtomicRegion

namespace BlockStarts

def InRange (prog : Program) (ts : Threads) (s : BlockStarts) : Prop :=
  ∀ t, ∀ r ∈ s.ofThread t, t < ts.size ∧ r.op < prog.ops.size ∧ ∀ x ∈ r.sources, x < prog.ops.size

variable {ts : Threads} {s : BlockStarts} {t : ThreadId} {o : OpId} {kind : BlockKind}
  {placement : Placement} {sources : List OpId}

theorem mem_sources_merge {old : BlockStart} {x : OpId}
    (h : x ∈ (merge old kind placement sources).1.sources) : x ∈ old.sources ∨ x ∈ sources := by
  unfold merge at h
  dsimp only at h
  split at h
  · exact List.mem_append.mp (mem_sortNats.mp h)
  · split at h
    · exact List.mem_append.mp (mem_sortNats.mp h)
    · exact .inl h

theorem mem_sources_after {x : OpId} (h : x ∈ (s.after t o kind placement sources).sources) :
    x ∈ sources ∨ ∃ old, s.get? t o = some old ∧ x ∈ old.sources := by
  unfold after at h
  cases hold : s.get? t o with
  | none =>
    rw [hold] at h
    exact .inl h
  | some old =>
    rw [hold] at h
    exact (mem_sources_merge h).symm.imp_right fun hx => ⟨old, rfl, hx⟩

theorem InRange.file (h : s.InRange prog ts) (ht : t < ts.size) (ho : o < prog.ops.size)
    (hsources : ∀ x ∈ sources, x < prog.ops.size) :
    (s.file t o kind placement sources).1.InRange prog ts := by
  intro u r hr
  rcases mem_ofThread_file hr with ⟨rfl, rfl⟩ | ⟨hr, -⟩
  · refine ⟨ht, (op_after s u o kind placement sources).symm ▸ ho, fun x hx => ?_⟩
    rcases mem_sources_after hx with hx | ⟨old, hold, hx⟩
    · exact hsources x hx
    · exact (h u old (List.mem_of_find?_eq_some hold)).2.2 x hx
  · exact h u r hr

end BlockStarts

namespace PhaseTracker

structure InRange (cx : Analysis) (pt : PhaseTracker) : Prop where
  regions : ∀ o region, pt.regions.get? o = some region → region.InRange cx.prog
  requests : pt.requests.InRange cx.prog cx.threads
  opAreas : ∀ o a, pt.opAreas.get? o = some a → o < cx.prog.ops.size
  areas : ∀ t areas, pt.areas.get? t = some areas → ∀ p a, areas.get? p = some a → p.Live cx.prog

structure Tracking.InRange (cx : Analysis) (s : Tracking) : Prop where
  requests : s.requests.InRange cx.prog cx.threads
  opAreas : ∀ o a, s.opAreas.get? o = some a → o < cx.prog.ops.size

section Walks

variable {cx : Analysis} {pt : PhaseTracker} {t : ThreadId} (hcx : cx.InRange)
  (hpt : pt.InRange cx) (ht : t < cx.threads.size)

theorem Tracking.InRange.recordArea {s : Tracking} (h : s.InRange cx) {o : OpId}
    (ho : o < cx.prog.ops.size) (a : Area) : (recordArea o a s).InRange cx where
  requests := h.requests
  opAreas x b hx := by
    rw [PhaseTracker.recordArea, Table.get?_put] at hx
    split at hx
    · next heq => exact heq ▸ ho
    · exact h.opAreas x b hx

include ht in
theorem file_ends {s : Tracking} (h : s.InRange cx) {o : OpId} (ho : o < cx.prog.ops.size)
    (kind : BlockKind) (placement : Placement) {sources : List OpId}
    (hsources : ∀ x ∈ sources, x < cx.prog.ops.size) :
    (file cx t o kind placement sources).Ends s (fun _ s' => s'.InRange cx) (Violates cx.prog) := by
  refine .of_ok rfl ⟨h.requests.file ht ho ?_, h.opAreas⟩
  split
  · exact hsources
  · simp

include ht in
theorem fileAll_ends {s : Tracking} (h : s.InRange cx) {ops : List OpId}
    (hops : ∀ o ∈ ops, o < cx.prog.ops.size) (kind : BlockKind) (placement : Placement)
    {sources : List OpId} (hsources : ∀ x ∈ sources, x < cx.prog.ops.size) :
    (fileAll cx t kind placement sources ops).Ends s (fun _ s' => s'.InRange cx)
      (Violates cx.prog) := by
  induction ops generalizing s with
  | nil => exact .of_ok rfl h
  | cons o rest ih =>
    obtain ⟨ho, hrest⟩ := List.forall_mem_cons.mp hops
    exact .bind (file_ends ht h ho kind placement hsources) fun _ s' hs' => ih hs' hrest

include hcx hpt in
theorem regionOf_ends {s : Tracking} (h : s.InRange cx) {o : OpId} (ho : o < cx.prog.ops.size)
    (hk : cx.prog.kind o = .library .atomicBegin) :
    (regionOf cx pt o).Ends s (fun region s' => region.InRange cx.prog ∧ s'.InRange cx)
      (Violates cx.prog) := by
  unfold regionOf
  split
  · next region hknown => exact .of_ok rfl ⟨hpt.regions o region hknown, h⟩
  · refine .bind_ok rfl ?_
    rw [scanRegion_result]
    have hscan := AtomicRegion.scan_ends hcx.program (m := cx.movability) ho hk
    refine Action.ends_check (fun region hregion =>
      ⟨hscan.of_eq hregion, h.requests, h.opAreas⟩) fun e he => ?_
    rw [he] at hscan
    exact hscan

include hcx in
theorem regionSources_inRange (region : AtomicRegion) :
    ∀ x ∈ regionSources cx region, x < cx.prog.ops.size := by
  intro x hx
  obtain ⟨o, -, hx⟩ := List.mem_flatMap.mp (mem_sortNats.mp hx)
  exact hcx.conflicts o x hx

include hcx hpt ht in
theorem visitRegion_ends {s : Tracking} (h : s.InRange cx) {o : OpId} (ho : o < cx.prog.ops.size)
    (hk : cx.prog.kind o = .library .atomicBegin) (a : Area) :
    (visitRegion cx pt t o a).Ends s (fun st s' => s'.InRange cx ∧ st.Within (·.Live cx.prog))
      (Violates cx.prog) := by
  refine .bind (regionOf_ends hcx hpt h ho hk) ?_
  rintro region s₁ ⟨hregion, h₁⟩
  have hexits := hregion.live_exits hcx.program
  dsimp only
  split
  · next kind placement _ =>
    refine .bind (fileAll_ends ht h₁ (fun e he => (hregion.ends e he).1) kind placement
      (regionSources_inRange hcx region)) fun _ s₂ h₂ => ?_
    exact Action.ends_pure ⟨h₂, Step.within_jump _ hexits⟩
  · exact .bind_ok rfl (Action.ends_pure ⟨h₁, Step.within_jump _ hexits⟩)

include hcx ht in
theorem visitMover_ends {s : Tracking} (h : s.InRange cx) {o : OpId} (ho : o < cx.prog.ops.size)
    (a : Area) : (visitMover cx pt t o a).Ends s (fun st s' => s'.InRange cx ∧ st.Within (·.Live cx.prog))
      (Violates cx.prog) := by
  unfold visitMover
  dsimp only
  split
  · next kind placement _ =>
    refine .bind (file_ends ht h ho kind placement (hcx.conflicts o)) fun _ s₁ h₁ => ?_
    exact Action.ends_pure ⟨h₁, Step.within_continue _ _⟩
  · exact .bind_ok rfl (Action.ends_pure ⟨h, Step.within_continue _ _⟩)

theorem visitStrayEnd_ends {s : Tracking} (h : s.InRange cx) (o : OpId) (a : Area) :
    (visitStrayEnd cx o a).Ends s (fun st s' => s'.InRange cx ∧ st.Within (·.Live cx.prog))
      (Violates cx.prog) := by
  refine .bind_ok (t := s) rfl ?_
  split
  · exact .bind_ok rfl (Action.ends_pure ⟨⟨h.requests, h.opAreas⟩, Step.within_continue _ _⟩)
  · exact Action.ends_pure ⟨h, Step.within_continue _ _⟩

include hcx hpt ht

theorem processor_closed : (processor cx pt t).Closed cx.prog (·.Live cx.prog)
    (Tracking.InRange cx) (Violates cx.prog) where
  valid := Program.valid_of_live
  branch hp hb := hcx.program.live_entry (hcx.program.succ _ (Program.live_ops hp).1 _ hb).1
  visit := by
    intro p o a s _ hmem h
    obtain ⟨ho, -⟩ := hcx.program.mem_ops.mp hmem
    refine .bind_ok rfl ?_
    have hrec := h.recordArea ho a
    split
    · exact Action.ends_pure ⟨hrec, Step.within_continue _ _⟩
    · next hk => exact visitRegion_ends hcx hpt ht hrec ho hk a
    · exact visitStrayEnd_ends hrec o a
    · exact visitMover_ends hcx ht hrec ho a
  afterCall := by
    intro p o f s _ hmem hk h
    obtain ⟨ho, -⟩ := hcx.program.mem_ops.mp hmem
    refine Action.ends_pure ⟨h, fun q hq => ?_⟩
    rw [List.mem_singleton.mp hq]
    have hf : f < cx.prog.procs.size := hcx.targets o ho f (by simp [hk, OpKind.callEdge?])
    exact hcx.program.live_entry (hcx.program.entry_ok hf).2.2.2.1
  afterReturn := by
    intro f s h
    refine Action.ends_pure ⟨h, fun q hq => ?_⟩
    unfold afterReturn at hq
    split at hq
    · cases hq
    · obtain ⟨c, hc, hk, rfl⟩ := hcx.ownership.site f q (List.mem_filter.mp hq).1
      exact hcx.program.live_after hc (Ownership.not_isTerminator_of_call hk)
  revisit := by
    rintro p r a edge s ⟨o, ho⟩ h
    show Action.Ends (revisit cx pt t p a edge) s _ _
    unfold revisit
    split
    · refine .bind_ok (Action.check_ok.mpr ⟨Checked.index_ok.mpr ho, rfl⟩) ?_
      exact file_ends ht h (hcx.program.opAt?_iff.mp ho).1 _ _ (by simp)
    · exact Action.ends_pure h

theorem addThread_ends : (addThread cx pt t).result.Ends (fun x => x.1.InRange cx)
    (Violates cx.prog) := by
  have hfirst := (hcx.program.firstPoint_ok (hcx.threads.proc_lt t ht)).1
  have hstart : (start pt t).state.InRange cx ∧
      ∀ p a, (start pt t).areas.get? p = some a → p.Live cx.prog := by
    refine ⟨⟨hpt.requests, hpt.opAreas⟩, fun p a hp => ?_⟩
    unfold start at hp
    cases hareas : pt.areas.get? t with
    | none => simp [hareas] at hp
    | some areas =>
      simp only [hareas, Option.getD_some] at hp
      exact hpt.areas t areas hareas p a hp
  have hwalk : (walkThread cx pt t).Ends (start pt t) (fun _ w => w.state.InRange cx ∧
      ∀ p a, w.areas.get? p = some a → p.Live cx.prog) (Violates cx.prog) := by
    obtain ⟨o, ho⟩ := hfirst
    refine .bind_ok (Action.check_ok.mpr ⟨Checked.index_ok.mpr ho, rfl⟩) ?_
    refine .bind (Q := fun _ w => (w.state.InRange cx ∧
      ∀ p a, w.areas.get? p = some a → p.Live cx.prog) ∧ w.stack = []) (Walk.lift_ends ?_) ?_
    · refine (file_ends ht hstart.1 (hcx.program.opAt?_iff.mp ho).1 _ _ (by simp)).mono ?_
      exact fun _ s' _ hs' => ⟨⟨hs', hstart.2⟩, rfl⟩
    · rintro _ w ⟨hkept, hstack⟩
      exact Walk.walk_ends (Walk.Closed.safe (processor_closed hcx hpt ht)) hstack hkept ⟨o, ho⟩
  unfold addThread
  unfold Action.Ends at hwalk
  split
  · next w hw =>
    rw [hw] at hwalk
    refine .of_ok rfl ⟨hpt.regions, hwalk.1.requests, hwalk.1.opAreas, ?_⟩
    intro u areas hu
    simp only [absorb, Table.get?_put] at hu
    split at hu
    · cases hu
      exact hwalk.2
    · exact hpt.areas u areas hu
  · next hw =>
    rw [hw] at hwalk
    exact hwalk

end Walks

section Runs

variable {cx : Analysis} {pt : PhaseTracker} (hcx : cx.InRange) (hpt : pt.InRange cx)

include hcx hpt

theorem addThreads_ends {ts : List ThreadId} (hts : ∀ t ∈ ts, t < cx.threads.size) :
    (addThreads cx pt ts).result.Ends (fun x => x.1.InRange cx) (Violates cx.prog) := by
  induction ts generalizing pt with
  | nil => exact .of_ok rfl hpt
  | cons t ts ih =>
    obtain ⟨ht, hts⟩ := List.forall_mem_cons.mp hts
    simp only [addThreads, Traced.result_bind]
    refine .bind (addThread_ends hcx hpt ht) fun x _ hx => ?_
    refine .bind (ih hx hts) fun y _ hy => ?_
    exact .of_ok rfl hy

theorem addRegions_ends {os : List OpId} (hos : ∀ o ∈ os, o < cx.prog.ops.size ∧
    cx.prog.kind o = .library .atomicBegin) :
    (addRegions cx pt os).result.Ends (InRange cx) (Violates cx.prog) := by
  induction os generalizing pt with
  | nil => exact .of_ok rfl hpt
  | cons o os ih =>
    obtain ⟨⟨ho, hk⟩, hos⟩ := List.forall_mem_cons.mp hos
    unfold addRegions
    split
    · exact ih hpt hos
    · rw [Traced.result_bind, scanRegion_result]
      refine .bind (AtomicRegion.scan_ends hcx.program ho hk) fun region _ hregion => ?_
      refine ih ⟨fun x found hx => ?_, hpt.requests, hpt.opAreas, hpt.areas⟩ hos
      rw [Table.get?_put] at hx
      split at hx
      · cases hx
        exact hregion
      · exact hpt.regions x found hx

theorem run_ends : (run cx pt).result.Ends (fun x => x.1.InRange cx) (Violates cx.prog) := by
  simp only [run, rerun, Traced.result_bind, Traced.result_log]
  have hmarkers : ∀ o ∈ beginMarkers cx, o < cx.prog.ops.size ∧
      cx.prog.kind o = .library .atomicBegin := by
    intro o ho
    obtain ⟨hlt, hk⟩ := List.mem_filter.mp ho
    rw [Bool.and_eq_true, decide_eq_true_eq] at hk
    exact ⟨List.mem_range.mp hlt, hk.1⟩
  refine .bind (addRegions_ends hcx hpt hmarkers) fun pt₁ _ hpt₁ => ?_
  refine .bind (addThreads_ends hcx hpt₁ fun t ht => List.mem_range.mp ht) fun x _ hx => ?_
  exact .of_ok rfl hx

end Runs

theorem create_inRange {cx : Analysis} (h : cx.prog.extraOptions = []) (mode : Mode) :
    ∃ pt, (create cx mode).result = .ok pt ∧ pt.InRange cx := by
  unfold create
  rw [h]
  refine ⟨_, rfl, fun o region ho => ?_, fun t r hr => ?_, fun o a ho => ?_, fun t areas ht => ?_⟩
  · cases ho
  · cases hr
  · cases ho
  · cases ht

end PhaseTracker

theorem Plan.lt_of_continuations {cx : Analysis} (h : cx.InRange) {t : ThreadId} {o c : OpId}
    (hc : c ∈ continuations cx t o) : c < cx.prog.ops.size := by
  unfold continuations at hc
  split at hc
  · obtain ⟨p, -, hp⟩ := List.mem_filterMap.mp (List.mem_filter.mp hc).1
    exact (h.program.opAt?_iff.mp hp).1
  · cases hc

theorem Plan.exists_request {cx : Analysis} {pt : PhaseTracker} {t : ThreadId} {s : PlanStep}
    (hs : s ∈ (ofThread cx pt t).steps) : ∃ r ∈ pt.requests.ofThread t, r.op = s.op := by
  rcases List.mem_append.mp hs with hs | hs
  · unfold initSteps at hs
    split at hs
    · next first rest _ hrequests =>
      split at hs
      · cases hs
      · rw [List.mem_singleton.mp hs]
        exact ⟨first, by rw [hrequests]; exact List.mem_cons_self, rfl⟩
    · cases hs
  · obtain ⟨r, hr, hs⟩ := List.mem_flatMap.mp hs
    obtain ⟨a, -, rfl⟩ := List.mem_map.mp hs
    exact ⟨r, hr, rfl⟩

theorem Plan.lt_of_steps {cx : Analysis} {pt : PhaseTracker} (h : pt.InRange cx)
    {tp : ThreadPlan} (htp : tp ∈ (build cx pt).threads) {s : PlanStep} (hs : s ∈ tp.steps) :
    s.op < cx.prog.ops.size := by
  obtain ⟨t, -, rfl⟩ := List.mem_map.mp htp
  obtain ⟨r, hr, hop⟩ := exists_request hs
  exact hop ▸ (h.requests t r hr).2.1

/-- What a reduction works on and records is of its program, down to the operations that the plan
asks reachability about and those that its steps stand at. -/
structure Reduction.InRange (red : Reduction) : Prop where
  analysis : red.analysis.InRange
  tracker : red.tracker.InRange red.analysis
  continuations : ∀ t o, ∀ c ∈ Plan.continuations red.analysis t o, c < red.analysis.prog.ops.size
  steps : ∀ tp ∈ red.plan.threads, ∀ s ∈ tp.steps, s.op < red.analysis.prog.ops.size

/-- The reduction of a lowered program gives a result, or fails on a precondition that the program
violates, and no loop on the way is cut short by its bound. All that is recorded is of the program, so
no index is out of range, and every question about reachability has an answer. An operation takes more
room than the row of a bit matrix, so there is room for the rows wherever there was room for the
program. -/
theorem reduction_fails_on_preconditions_only {d : Description} {prog : Program}
    (h : d.lower = .ok prog) (hsize : prog.ops.size ≤ BitMatrix.maxRows) (mayAlias : AliasOracle)
    (mode : Mode) :
    ((∃ red, (prog.reduceWith mayAlias mode).result = .ok red ∧ red.InRange) ∨
      ∃ e, (prog.reduceWith mayAlias mode).result = .error e ∧ Violates prog e) ∧
    (∀ cx, (prog.analyze mayAlias).result = .ok cx → cx.InRange) ∧ prog.AmpleBounds := by
  obtain ⟨hbuilt, hresolved⟩ := Description.lower_ok h
  obtain ⟨hc, hv⟩ := hbuilt.coherent
  have hs := hc.shaped hv
  have hanalysis : (prog.analyze mayAlias).result.Ends (fun cx => cx.prog = prog ∧ cx.InRange)
      (Violates prog) := Program.analyze_ends hs hv hresolved hsize
  refine ⟨Checked.ends_iff.mp ?_, fun cx hcx => (hanalysis.of_eq hcx).2,
    Program.ampleBounds hs hresolved.target⟩
  simp only [Program.reduceWith, Traced.result_bind]
  refine .bind hanalysis ?_
  rintro cx - ⟨rfl, hcx⟩
  obtain ⟨pt, hpt, hrange⟩ := PhaseTracker.create_inRange hresolved.options mode
  refine .bind_ok hpt (.bind (PhaseTracker.run_ends hcx hrange) fun x _ hx => ?_)
  exact .of_ok rfl ⟨hcx, hx, fun _ _ _ => Plan.lt_of_continuations hcx,
    fun _ htp _ => Plan.lt_of_steps hx htp⟩

def Description.guarded : Description where
  procedures := [
    { name := "main"
      blocks := [{
        name := "entry"
        ops := [.call "pthread_create" (some "worker"), .call "pthread_mutex_lock" (some "m"),
          .access .write (some "x"), .call "pthread_mutex_unlock" (some "m")] }] },
    { name := "worker"
      blocks := [
        { name := "head", ops := [.call "step" none], succs := ["head", "done"] },
        { name := "done" }] },
    { name := "step"
      blocks := [{
        name := "entry"
        ops := [.call "__VERIFIER_atomic_begin" none, .access .update (some "x"),
          .call "__VERIFIER_atomic_end" none] }] }]

def Program.guarded : Program := Description.guarded.lower.toOption.getD default

theorem guarded_is_reduced_in_range : Description.guarded.lower = .ok .guarded ∧
    ∃ red, (Program.guarded.reduceWith locationAliasing .dynamic).result = .ok red ∧ red.InRange := by
  have hlower : Description.guarded.lower = .ok .guarded :=
    Checked.ok_of_toOption (by decide +kernel)
  obtain ⟨hred | ⟨e, he, -⟩, -⟩ := reduction_fails_on_preconditions_only hlower
    (by decide +kernel) locationAliasing .dynamic
  · exact ⟨hlower, hred⟩
  · have hok : (Program.guarded.reduceWith locationAliasing .dynamic).result.toOption.isSome := by
      decide +kernel
    rw [he] at hok
    cases hok

end YieldPlan
