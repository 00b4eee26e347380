import YieldPlan.Proofs.FiledRequests
import YieldPlan.Proofs.OwnershipExact
import YieldPlan.Proofs.RegionPaths

/-! The walk that assigns operations goes past the calls that may return. The tracker leaves a
region behind its ends and a procedure behind the calls to it, and still comes to operations of its
own thread only. Two threads that came to one procedure would both own its entry, so a return leads
to calls of the same thread. The scan of a region steps over all calls; the ends that it finds must
be those that one comes to over calls that may return. -/

namespace YieldPlan

/-- The ends of the regions that the thread opens are found also if only calls that may return are
stepped over. -/
def Analysis.ClosesRegions (cx : Analysis) (t : ThreadId) : Prop :=
  ∀ o e, cx.conflicts.owner? o = some t → cx.prog.kind o = .library .atomicBegin →
    cx.prog.Closes (fun _ => True) o e → cx.prog.Closes (fun f => cx.reach.mayReturn f = true) o e

theorem Program.lt_of_callee? {prog : Program} {c : OpId} {f : ProcId}
    (h : (prog.kind c).callee? = some f) : c < prog.ops.size := by
  apply lt_of_kind_ne
  intro hk
  rw [hk] at h
  cases h

theorem Analysis.closesRegions_of_returns {cx : Analysis} (t : ThreadId)
    (h : ∀ c f, (cx.prog.kind c).callee? = some f → cx.reach.mayReturn f = true) :
    cx.ClosesRegions t := by
  intro o e _ _ hcloses
  apply hcloses.mono
  intro c f hcall _
  exact h c f hcall

namespace PhaseTracker

open Program BlockStarts

variable {mayAlias : AliasOracle} {cx : Analysis} {pt : PhaseTracker} {t : ThreadId} {o : OpId}

section Walks

variable (h : Analyzed cx.prog mayAlias cx) (hc : cx.prog.Coherent)
  (hsize : cx.prog.ops.size ≤ BitMatrix.maxRows) (hscanned : Scanned cx pt)
  (hregions : cx.ClosesRegions t)

include h hc

/-- Only one thread calls a procedure, and it returns to its own calls. -/
theorem owner?_call (hs : cx.prog.Shaped) {u : ThreadId} {c : OpId}
    (ho : cx.conflicts.owner? o = some t)
    (hroot : cx.prog.procOf o ≠ (cx.threads.get t).proc)
    (hcall : cx.prog.kind c = .call (cx.prog.procOf o)) (hu : cx.conflicts.owner? c = some u) :
    u = t := by
  obtain ⟨ht, hcomes⟩ := (h.owner?_iff hc).mp ho
  obtain ⟨e, he, hentry, -⟩ :=
    (hs.comesTo_cases (h.proc_lt ht) hcomes).2.resolve_left hroot
  have howner : cx.conflicts.owner? e = some t := (h.owner?_iff hc).mpr ⟨ht, hentry⟩
  have howner' : cx.conflicts.owner? e = some u :=
    h.owner?_advance hc hu (.enter (OpKind.callee?_eq_some.mpr hcall) he)
  exact Option.some.inj (howner'.symm.trans howner)

include hsize in
theorem site_owned (ho : cx.conflicts.owner? o = some t)
    (hk : cx.prog.kind o = .terminator .ret)
    (hroot : cx.prog.procOf o ≠ (cx.threads.get t).proc) {q : Point}
    (hq : q ∈ cx.ownership.sites (cx.prog.procOf o)) :
    q.At cx.prog (cx.conflicts.owner? · = some t) := by
  have hs := h.shaped hc
  obtain ⟨c, ⟨u, hu⟩, hcall, rfl⟩ := (h.mem_sites hc).mp hq
  obtain rfl := owner?_call h hc hs ho hroot hcall hu
  have hlt := hs.lt_of_comesTo ((h.owner?_iff hc).mp hu).2
  obtain ⟨x, hx⟩ := hs.exists_follows hlt (by simp [hcall, OpKind.isTerminator])
  have hreturns := h.mayReturn_of_ret hc hsize ho hk rfl hu (OpKind.callee?_eq_some.mpr hcall)
  exact ⟨x, hx, h.owner?_advance hc hu (.resume (OpKind.callee?_eq_some.mpr hcall) hreturns hx)⟩

include hscanned hregions in
theorem region_owned (ho : cx.conflicts.owner? o = some t) {region : AtomicRegion}
    (hopen : opens? cx pt o = some region) :
    (∀ e ∈ region.ends, cx.conflicts.owner? e = some t) ∧
      ∀ q ∈ region.exits, q.At cx.prog (cx.conflicts.owner? · = some t) := by
  have hs := h.shaped hc
  obtain ⟨hk, hat⟩ := opens?_ok hopen
  rw [hscanned.regionAt] at hat
  have hlt := hs.lt_of_comesTo ((h.owner?_iff hc).mp ho).2
  have hends : ∀ e ∈ region.ends, cx.conflicts.owner? e = some t := by
    intro e he
    obtain ⟨ht, hcomes⟩ := (h.owner?_iff hc).mp ho
    have hcloses := hregions o e ho hk ((AtomicRegion.scan_sound hs hlt hat).2 e he)
    exact (h.owner?_iff hc).mpr ⟨ht, hcomes.trans (hcloses.2.advance hk)⟩
  refine ⟨hends, fun q hq => ?_⟩
  obtain ⟨hmarkers, hexits⟩ := AtomicRegion.scan_ok hat
  rw [hexits] at hq
  obtain ⟨e, he, rfl⟩ := List.mem_map.mp hq
  have hke := hmarkers e he
  have hte : ¬ (cx.prog.kind e).isTerminator := by simp [hke, OpKind.isTerminator]
  have hlte := hs.lt_of_comesTo ((h.owner?_iff hc).mp (hends e he)).2
  obtain ⟨x, hx⟩ := hs.exists_follows hlte hte
  exact ⟨x, hx, h.owner?_advance hc (hends e he) (.next hte (by rw [hke]; rfl) hx)⟩

def OwnRequests (cx : Analysis) (t : ThreadId) (b : BlockStarts) : Prop :=
  ∀ r ∈ b.ofThread t, cx.conflicts.owner? r.op = some t

omit h hc in
theorem OwnRequests.files {b b' : BlockStarts} {allowed : OpId → BlockKind → Placement → Prop}
    (hb : OwnRequests cx t b)
    (hallowed : ∀ o kind placement, allowed o kind placement → cx.conflicts.owner? o = some t)
    (hfiles : Relation.ReflTransGen (Files t allowed) b b') : OwnRequests cx t b' := by
  apply files_keep _ hfiles hb
  intro b o kind placement sources hb ho
  exact forall_ofThread_file (P := fun x _ => cx.conflicts.owner? x = some t) hb
    (hallowed o kind placement ho)

include hsize hscanned hregions

theorem processor_tracks : (processor cx pt t).Tracks cx.prog (cx.conflicts.owner? · = some t)
    (fun s => OwnRequests cx t s.requests) where
  next ho hterm hk hf := h.owner?_advance hc ho (.next hterm hk hf)
  branch := by
    intro o b ho hk hb
    have hs := h.shaped hc
    obtain ⟨x, hx⟩ := hs.exists_first (hs.succ _ (lt_of_succ hb) b hb).1
    exact ⟨x, hx, h.owner?_advance hc ho (.branch hk hb hx)⟩
  visit := by
    intro o a s st s' ho hS hv
    rw [(visit_ok hv).1]
    cases hopen : opens? cx pt o with
    | none =>
      constructor
      · apply hS.files _ (visit_files hv)
        rintro x kind placement ⟨hx, -⟩
        rw [requestOps, hopen, List.mem_singleton] at hx
        exact hx ▸ ho
      · simp only [effects, hopen]
        exact Step.within_continue _ _
    | some region =>
      obtain ⟨hends, hexits⟩ := region_owned h hc hscanned hregions ho hopen
      constructor
      · apply hS.files _ (visit_files hv)
        rintro x kind placement ⟨hx, -⟩
        rw [requestOps, hopen] at hx
        exact hends x hx
      · simp only [effects, hopen]
        exact Step.within_jump _ hexits
  afterCall := by
    intro o f s l s' ho hk hS hcall
    obtain ⟨rfl, rfl⟩ := Action.pure_ok.mp hcall
    have hs := h.shaped hc
    have hlt := hs.lt_of_comesTo ((h.owner?_iff hc).mp ho).2
    have hcallee := OpKind.callee?_eq_some.mpr hk
    obtain ⟨-, -, -, hblock, -, he⟩ :=
      hs.entry_ok (h.targets o hlt f (callEdge?_of_callee? hcallee))
    refine ⟨hS, fun q hq => ?_⟩
    obtain rfl := List.mem_singleton.mp hq
    exact ⟨_, hs.opAt?_firstOp hblock, h.owner?_advance hc ho (.enter hcallee he)⟩
  afterReturn := by
    intro o s l s' ho hk hS hret
    obtain ⟨rfl, rfl⟩ := Action.pure_ok.mp hret
    refine ⟨hS, fun q hq => ?_⟩
    unfold afterReturn at hq
    split at hq
    · cases hq
    · next hroot => exact site_owned h hc hsize ho hk hroot (List.mem_of_mem_filter hq)
  revisit := by
    rintro p r a edge s u s' ⟨x, hx, howner⟩ hS hrevisit
    apply hS.files _ (revisit_files hrevisit).1
    rintro y kind placement ⟨hy, -⟩
    exact Option.some.inj (hy.symm.trans hx) ▸ howner

theorem Kept.owned {w₀ w : Walk Tracking} (hkept : Kept cx pt t w₀ w) (ht : t ∈ cx.threads.ids) :
    OwnRequests cx t pt.requests ∧
      ∀ p a, w.areas.get? p = some a → p.At cx.prog (cx.conflicts.owner? · = some t) := by
  obtain ⟨first, s, hfirst, hfile, hwalk⟩ := walkThread_cases hkept.walked
  have howner : cx.conflicts.owner? first = some t :=
    (h.owner?_iff hc).mpr ⟨ht, first, hfirst, .refl⟩
  have hstart : OwnRequests cx t w₀.state.requests := by
    unfold OwnRequests
    simp [hkept.unrequested]
  have hS : OwnRequests cx t s.requests := by
    apply hstart.files _ (.single (file_files hfile))
    rintro x kind placement ⟨rfl, -⟩
    exact howner
  obtain ⟨hrequests, hareas⟩ := Walk.walk_tracks (w := { w₀ with state := s })
    (processor_tracks h hc hsize hscanned hregions) (h.shaped hc) hkept.stack hS
    (by simp [hkept.areas]) ⟨first, hfirst, howner⟩ hwalk
  constructor
  · unfold OwnRequests
    rw [hkept.requests]
    exact hrequests
  · exact hareas

theorem Trail.owned {w₀ w : Walk Tracking} (hkept : Kept cx pt t w₀ w) (ht : t ∈ cx.threads.ids)
    {vs : List Visit} {p : Point} {ops : List OpId} (htrail : Trail cx pt t vs p ops) :
    ∀ o rest, ops = o :: rest → cx.conflicts.owner? o = some t := by
  have hareas := (hkept.owned h hc hsize hscanned hregions ht).2
  have hfinished := hkept.finished
  have hentered : ∀ {vs p ops}, Trail cx pt t vs p ops → p.ops? cx.prog = some ops →
      ∀ o rest, ops = o :: rest → cx.conflicts.owner? o = some t := by
    rintro vs p _ htrail hops o rest rfl
    obtain ⟨a, ha, -⟩ := (htrail.ahead hfinished).2 hops
    obtain ⟨x, hx, howner⟩ := hareas p a ha
    obtain rfl : x = o := by
      have hhead : p.op? cx.prog = some o := op?_of_ops? hops
      exact Option.some.inj (hx.symm.trans hhead)
    exact howner
  induction htrail with
  | start hops => exact hentered (.start hops) hops
  | @pass vs p o rest htrail hpass ih =>
    rintro o' rest' rfl
    obtain ⟨-, hf⟩ := hc.follows_of_suffix htrail.mem
    exact h.owner?_advance hc (ih o _ rfl) (.next hpass.1 hpass.2.1 hf)
  | jump htrail hleads hops => exact hentered (.jump htrail hleads hops) hops

end Walks

end PhaseTracker

open PhaseTracker in
/-- Where the regions of a thread close over calls that may return, its requests, its recorded points
and the paths of its tracker are all in the code that it owns. -/
theorem tracking_stays_in_owned_code {prog : Program} (hbuilt : prog.Built)
    (hsize : prog.ops.size ≤ BitMatrix.maxRows) {mayAlias : AliasOracle} {mode : Mode}
    {red : Reduction} (h : (prog.reduceWith mayAlias mode).result = .ok red) {t : ThreadId}
    (ht : t ∈ red.analysis.threads.ids) (hregions : red.analysis.ClosesRegions t) :
    (∀ r ∈ red.tracker.requests.ofThread t, red.analysis.conflicts.owner? r.op = some t) ∧
    (∃ areas, red.tracker.areas.get? t = some areas ∧ ∀ p a, areas.get? p = some a →
      ∃ o, p.op? prog = some o ∧ red.analysis.conflicts.owner? o = some t) ∧
    ∀ vs p o rest, Trail red.analysis red.tracker t vs p (o :: rest) →
      red.analysis.conflicts.owner? o = some t := by
  obtain ⟨hcx, checks, n, hrun, -⟩ := Program.reduceWith_ok h
  have ha := Program.analyze_ok hcx
  have hc := hbuilt.coherent.1
  have hscanned := scanned_of_run hrun
  obtain ⟨w₀, w, hkept⟩ := run_kept hrun ht
  obtain rfl := ha.prog_eq
  obtain ⟨hrequests, hareas⟩ := hkept.owned ha hc hsize hscanned hregions ht
  refine ⟨hrequests, ⟨w.areas, hkept.recorded, hareas⟩, ?_⟩
  intro vs p o rest htrail
  exact htrail.owned ha hc hsize hscanned hregions hkept ht o rest rfl

def BuildStep.countedWriteSteps : List BuildStep :=
  [.proc "main", .proc "worker", .proc "count", .block 0 "entry", .block 1 "entry",
    .block 2 "entry", .op 0 (.library (.threadCreate 1)), .op 0 (.call 2),
    .op 0 (.library .atomicBegin), .op 0 (.call 2), .op 0 (.memory .write (.named "x")),
    .op 0 (.library .atomicEnd), .op 0 (.terminator .ret), .op 1 (.memory .write (.named "x")),
    .op 1 (.terminator .ret), .op 2 (.memory .write (.named "n")), .op 2 (.terminator .ret)]

def Program.countedWrite : Program :=
  ((BuildStep.applyAll {} BuildStep.countedWriteSteps).toOption.getD default).1

theorem Program.built_countedWrite : Program.countedWrite.Built := by
  refine .inl ⟨BuildStep.countedWriteSteps, .countedWrite,
    [0, 1, 2, 0, 1, 2, 0, 1, 2, 3, 4, 5, 6, 7, 8, 9, 10], ?_, ?_⟩
  · decide +kernel
  · decide +kernel

def Reduction.countedWrite : Reduction :=
  (Program.countedWrite.reduce .dynamic).result.toOption.getD default

theorem counted_write_is_tracked_in_its_thread :
    (Program.countedWrite.reduce .dynamic).result = .ok .countedWrite ∧
      (Reduction.countedWrite.tracker.requests.ofThread 0).map (·.op) = [0, 5] ∧
      ∀ r ∈ Reduction.countedWrite.tracker.requests.ofThread 0,
        Reduction.countedWrite.analysis.conflicts.owner? r.op = some 0 := by
  have hok : (Program.countedWrite.reduce .dynamic).result = .ok .countedWrite :=
    Checked.ok_of_toOption (by decide +kernel)
  have hreturns : ∀ c < 11, ∀ f ∈ (Reduction.countedWrite.analysis.prog.kind c).callee?,
      Reduction.countedWrite.analysis.reach.mayReturn f = true := by
    decide +kernel
  have hregions : Reduction.countedWrite.analysis.ClosesRegions 0 := by
    apply Analysis.closesRegions_of_returns
    intro c f hcall
    have hlt := Program.lt_of_callee? hcall
    exact hreturns c (hlt.trans_eq (by decide +kernel)) f hcall
  refine ⟨hok, by decide +kernel, ?_⟩
  exact (tracking_stays_in_owned_code Program.built_countedWrite (by decide +kernel) hok
    (by decide +kernel) hregions).1

/-- A thread that calls in a region a procedure that never returns, and behind the region one that
another thread calls too. -/
def BuildStep.stuckRegionSteps : List BuildStep :=
  [.proc "main", .proc "worker", .proc "stuck", .proc "helper", .block 0 "entry", .block 1 "entry",
    .block 2 "loop", .block 3 "entry", .op 0 (.library (.threadCreate 1)),
    .op 0 (.library .atomicBegin), .op 0 (.call 2), .op 0 (.library .atomicEnd), .op 0 (.call 3),
    .op 0 (.terminator .ret), .op 1 (.call 3), .op 1 (.terminator .ret), .branch 2 [2],
    .op 3 (.library (.mutexLock (.named "m"))), .op 3 (.terminator .ret)]

def Program.stuckRegion : Program :=
  ((BuildStep.applyAll {} BuildStep.stuckRegionSteps).toOption.getD default).1

theorem Program.built_stuckRegion : Program.stuckRegion.Built := by
  refine .inl ⟨BuildStep.stuckRegionSteps, .stuckRegion,
    [0, 1, 2, 3, 0, 1, 2, 3, 0, 1, 2, 3, 4, 5, 6, 7, 8, 9, 10], ?_, ?_⟩
  · decide +kernel
  · decide +kernel

/-- Without the condition the tracker of one thread goes on behind a region that the thread never
leaves: it requests a block in the code of the other thread, and it records a point that no thread
comes to. -/
theorem code_behind_stuck_region_is_tracked :
    Program.stuckRegion.Built ∧ ∃ red, (Program.stuckRegion.reduce .static).result = .ok red ∧
      0 ∈ red.analysis.threads.ids ∧
      (∃ r ∈ red.tracker.requests.ofThread 0, red.analysis.conflicts.owner? r.op = some 1) ∧
      ((red.tracker.areas.get? 0).bind fun areas => areas.get? ⟨0, 4⟩) = some .post ∧
      (⟨0, 4⟩ : Point).op? Program.stuckRegion = some 4 ∧
      red.analysis.conflicts.owner? 4 = none := by
  have hok := Checked.ok_of_toOption (x := (Program.stuckRegion.reduce .static).result)
    (by decide +kernel)
  refine ⟨Program.built_stuckRegion, _, hok, ?_, ?_, ?_, ?_, ?_⟩
  · decide +kernel
  · decide +kernel
  · decide +kernel
  · decide +kernel
  · decide +kernel

end YieldPlan
