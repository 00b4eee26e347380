import YieldPlan.Proofs.OwnershipExact
import YieldPlan.Proofs.StaticReduction

/-! A conflict check lists the blocks of other threads that may be open while a source runs. A block
stays open across returns, also from procedures that the thread had entered before the block
started. Every path from the start of a block to the source splits at such returns into parts that
reachability knows of, and the search over return sites follows the path from part to part. -/

namespace YieldPlan

namespace Program

variable (prog : Program)

/-- One step of a thread whose outermost known procedure was entered from an unknown call. From there
it may return to any call of that procedure for which `mine` holds. -/
inductive OpenStep (mine : OpId → Prop) : List OpId → List OpId → Prop where
  | inner {s s'} : prog.ThreadStep s s' → OpenStep mine s s'
  | leave {o c o'} : prog.kind o = .terminator .ret → mine c →
      prog.kind c = .call (prog.procOf o) → prog.Follows c o' → OpenStep mine [o] [o']

/-- Activations of a thread since it was at `base`, which is in the outermost of them. -/
def Above (base : OpId) : List OpId → Prop
  | [] => False
  | [o] => prog.Level base o
  | o :: c :: calls => (∃ f e, prog.kind c = .call f ∧ prog.entryOp? f = some e ∧
      prog.Level e o) ∧ Above base (c :: calls)

variable {prog} {base : OpId}

theorem Above.level {o o' : OpId} {calls : List OpId} (h : prog.Above base (o :: calls))
    (hl : prog.Level o o') : prog.Above base (o' :: calls) := by
  cases calls with
  | nil => exact Level.trans h hl
  | cons c calls =>
    obtain ⟨⟨f, e, hk, he, hlevel⟩, hrest⟩ := h
    exact ⟨⟨f, e, hk, he, hlevel.trans hl⟩, hrest⟩

theorem Above.step {s s' : List OpId} (h : prog.Above base s) (hs : prog.ThreadStep s s') :
    prog.Above base s' := by
  cases hs with
  | pass ht hc hf => exact h.level (.next .refl ht hc hf)
  | branch hk hs ho => exact h.level (.branch .refl hk hs ho)
  | call hk he => exact ⟨⟨_, _, hk, he, .refl⟩, h⟩
  | ret hk hf =>
    obtain ⟨⟨f, e, hkc, he, hlevel⟩, hrest⟩ := h
    exact Above.level hrest (.skip .refl (OpKind.callee?_eq_some.mpr hkc) he hlevel hk hf)

theorem Above.advance (hs : prog.Shaped) {returns : ProcId → Prop}
    (hr : ∀ f < prog.procs.size, Reachability.Returns prog returns f → returns f) {o : OpId}
    {calls : List OpId} (h : prog.Above base (o :: calls)) :
    Relation.ReflTransGen (prog.Advance returns) base o := by
  induction calls generalizing o with
  | nil => exact (hs.advance_of_level hr h).1
  | cons c calls ih =>
    obtain ⟨⟨f, e, hk, he, hlevel⟩, hrest⟩ := h
    apply ((ih hrest).tail (.enter (OpKind.callee?_eq_some.mpr hk) he)).trans
    exact (hs.advance_of_level hr hlevel).1

end Program

namespace Plan

open Program

variable {prog : Program} {mayAlias : AliasOracle} {cx : Analysis} {pt : PhaseTracker}
  {t : ThreadId} {start o c o' j : OpId} {s s' : List OpId}

section Search

variable (h : Analyzed prog mayAlias cx) (hc : prog.Coherent)
  (hsize : prog.ops.size ≤ BitMatrix.maxRows)

include h hc hsize

theorem reach_of_advance (ho : o < prog.ops.size) (hj : j < prog.ops.size)
    (hpath : Relation.ReflTransGen (prog.Advance fun f => cx.reach.mayReturn f = true) o j) :
    o = j ∨ cx.reach.reach prog o j = true := by
  have hflow : Relation.ReflTransGen (prog.Flow fun f => cx.reach.mayReturn f = true) o j :=
    Relation.ReflTransGen.mono (fun _ _ => Advance.flow) _ _ hpath
  rcases Relation.reflTransGen_iff_eq_or_transGen.mp hflow with heq | htrans
  · exact .inl heq.symm
  · exact .inr ((h.reach_iff hc hsize ho hj).mpr htrans)

theorem mem_continuations {r : OpId} (ho : cx.conflicts.owner? o = some t)
    (hl : prog.Level o r) (hk : prog.kind r = .terminator .ret)
    (hcowner : cx.conflicts.owner? c = some t) (hkc : prog.kind c = .call (prog.procOf r))
    (hf : prog.Follows c o') :
    o' ∈ continuations cx t o ∧ cx.conflicts.owner? o' = some t := by
  have hs := h.shaped hc
  obtain ⟨ht, hcomes⟩ := (h.owner?_iff hc).mp ho
  have holt := hs.lt_of_comesTo hcomes
  obtain ⟨hrlt, hproc⟩ := hs.procOf_level holt hl
  have hpath := (hs.advance_of_level (h.returns hc hsize) hl).1
  have hrowner : cx.conflicts.owner? r = some t :=
    (h.owner?_iff hc).mpr ⟨ht, hcomes.trans hpath⟩
  have hreturns := h.mayReturn_of_ret hc hsize hrowner hk rfl hcowner (OpKind.callee?_eq_some.mpr hkc)
  have howner : cx.conflicts.owner? o' = some t := by
    apply (h.owner?_iff hc).mpr
    have hcallee := OpKind.callee?_eq_some.mpr hkc
    exact ⟨ht, ((h.owner?_iff hc).mp hcowner).2.tail (.resume hcallee hreturns hf)⟩
  refine ⟨?_, howner⟩
  have hleaves : leavesProc cx o = true := by
    rw [leavesProc, h.prog_eq]
    refine List.any_eq_true.mpr ⟨r, (Reachability.mem_procOps hs).mpr ⟨hrlt, hproc⟩, ?_⟩
    rcases reach_of_advance h hc hsize holt hrlt hpath with heq | hreach
    · simp [hk, heq]
    · simp [hk, hreach]
  have hsite : prog.pointAfter c ∈ cx.ownership.sites (prog.procOf o) :=
    (h.mem_sites hc).mpr ⟨c, ⟨t, hcowner⟩, hproc ▸ hkc, rfl⟩
  rw [continuations, if_pos hleaves, h.prog_eq]
  refine List.mem_filter.mpr ⟨List.mem_filterMap.mpr ⟨_, hsite, hf⟩, ?_⟩
  simpa using howner

/-- The thread has come from the start of a block to where it is: the search over return sites has met
the operation that its outermost known activation was at last entered or returned to. -/
def Open (prog : Program) (cx : Analysis) (t : ThreadId) (start : OpId) (s : List OpId) : Prop :=
  ∃ base, Graph.Reaches (continuations cx t) start base ∧ cx.conflicts.owner? base = some t ∧
    prog.Above base s

theorem Open.step (hopen : Open prog cx t start s)
    (hs : prog.OpenStep (fun c => cx.conflicts.owner? c = some t) s s') :
    Open prog cx t start s' := by
  obtain ⟨base, hreach, howner, habove⟩ := hopen
  cases hs with
  | inner hs => exact ⟨base, hreach, howner, habove.step hs⟩
  | leave hk hcowner hkc hf =>
    obtain ⟨hmem, howner'⟩ := mem_continuations h hc hsize howner habove hk hcowner hkc hf
    exact ⟨_, hreach.tail hmem, howner', Level.refl⟩

omit hsize in
theorem mem_reachableFrom (hstart : start < prog.ops.size) (hreach : Graph.Reaches
    (continuations cx t) start o) :
    o ∈ Graph.reachableFrom prog.ops.size (continuations cx t) start := by
  have hclosed : ∀ v ∈ prog.opIds, ∀ w ∈ continuations cx t v, w ∈ prog.opIds := by
    intro v _ w hw
    unfold continuations at hw
    split at hw
    · have howner := (List.mem_filter.mp hw).2
      rw [decide_eq_true_eq] at howner
      obtain ⟨-, hcomes⟩ := (h.owner?_iff hc).mp howner
      exact List.mem_range.mpr ((h.shaped hc).lt_of_comesTo hcomes)
    · cases hw
  have hfound := Graph.mem_reachableFrom hclosed (v := start) (u := o) (List.mem_range.mpr hstart)
  rw [opIds, List.length_range] at hfound
  exact hfound.mpr hreach

theorem activeAt_of_path (howner : cx.conflicts.owner? start = some t) {calls : List OpId}
    (hpath : Relation.ReflTransGen
      (prog.OpenStep fun c => cx.conflicts.owner? c = some t) [start] (j :: calls)) :
    activeAt cx t start j = true := by
  have hs := h.shaped hc
  have hopen : Open prog cx t start (j :: calls) := by
    have hfirst : Open prog cx t start [start] := ⟨start, .refl, howner, Level.refl⟩
    generalize j :: calls = s at hpath
    induction hpath with
    | refl => exact hfirst
    | tail _ hstep ih => exact ih.step h hc hsize hstep
  obtain ⟨base, hreach, hbase, habove⟩ := hopen
  have hlt : ∀ {x}, cx.conflicts.owner? x = some t → x < prog.ops.size :=
    fun hx => hs.lt_of_comesTo ((h.owner?_iff hc).mp hx).2
  have hadvance := habove.advance hs (h.returns hc hsize)
  have hjlt : j < prog.ops.size :=
    hs.lt_of_comesTo (((h.owner?_iff hc).mp hbase).2.trans hadvance)
  rw [activeAt, h.prog_eq]
  refine List.any_eq_true.mpr ⟨base, mem_reachableFrom h hc (hlt howner) hreach, ?_⟩
  simpa using reach_of_advance h hc hsize (hlt hbase) hjlt hadvance

end Search

theorem orders_pairLe : Orders pairLe (Prod.Lex (· < ·) (· < ·)) := by
  constructor
  · intro a b c hab hbc
    exact IsTrans.trans _ _ _ hab hbc
  · intro a b hne hle
    simp only [pairLe, Bool.or_eq_true, Bool.and_eq_true, decide_eq_true_eq] at hle
    apply Prod.lex_def.mpr
    rcases hle with hlt | ⟨heq, hle⟩
    · exact .inl hlt
    · exact .inr ⟨heq, Nat.lt_of_le_of_ne hle fun he => hne (Prod.ext heq he)⟩
  · intro a b hle
    simp only [pairLe, Bool.or_eq_false_iff, Bool.and_eq_false_iff,
      decide_eq_false_iff_not] at hle
    obtain ⟨hlt, hor⟩ := hle
    apply Prod.lex_def.mpr
    by_cases heq : b.1 = a.1
    · exact .inr ⟨heq, Nat.lt_of_not_le (hor.resolve_left fun hne => hne heq.symm)⟩
    · exact .inl (Nat.lt_of_le_of_ne (Nat.le_of_not_lt hlt) heq)

theorem mem_openBlocks {r : BlockStart} (hj : cx.conflicts.owner? j = some t)
    (hr : r ∈ pt.requests.ofThread t) (hactive : activeAt cx t r.op j = true) :
    (t, r.id) ∈ openBlocks cx pt j := by
  unfold openBlocks
  rw [hj]
  exact List.mem_map.mpr ⟨r, List.mem_filter.mpr ⟨hr, hactive⟩, rfl⟩

theorem mem_steps_of_conflict {r : BlockStart} (hmode : pt.mode = .dynamic)
    (hr : r ∈ pt.requests.ofThread t) (hk : r.kind = .dynamicConflict) :
    (⟨r.op, r.placement, r.id, .conflictGuardedYield (checks cx pt r.sources)⟩ : PlanStep) ∈
      (ofThread cx pt t).steps := by
  apply List.mem_append_right
  refine List.mem_flatMap.mpr ⟨r, hr, ?_⟩
  simp [requestSteps, actions, hk, hmode]

end Plan

/-- The guarded yield that is planned for a request with a conflict check tests the blocks of other
threads in increasing order. Among them is every block of the owner of a source from whose start some
path leads to the source: into callees and back, and out of the procedures that the path did not enter
to any call of them that the owner executes. -/
theorem conflict_checks_are_complete {prog : Program} (hbuilt : prog.Built)
    (hsize : prog.ops.size ≤ BitMatrix.maxRows) {mayAlias : AliasOracle} {red : Reduction}
    (h : (prog.reduceWith mayAlias .dynamic).result = .ok red) {t : ThreadId}
    (ht : t ∈ red.analysis.threads.ids) {r : BlockStart} (hr : r ∈ red.tracker.requests.ofThread t)
    (hk : r.kind = .dynamicConflict) :
    ∃ plan ∈ red.plan.threads, plan.thread = t ∧ ∃ blocks : List (ThreadId × Nat),
      blocks.Pairwise (Prod.Lex (· < ·) (· < ·)) ∧
      (⟨r.op, r.placement, r.id, .conflictGuardedYield
        (blocks.map fun b => ⟨(red.analysis.threads.get b.1).name, b.2⟩)⟩ : PlanStep) ∈ plan.steps ∧
      ∀ j ∈ r.sources, ∀ u, red.analysis.conflicts.owner? j = some u →
        ∀ r' ∈ red.tracker.requests.ofThread u, red.analysis.conflicts.owner? r'.op = some u →
        ∀ calls, Relation.ReflTransGen
          (prog.OpenStep fun c => red.analysis.conflicts.owner? c = some u) [r'.op] (j :: calls) →
        (u, r'.id) ∈ blocks := by
  obtain ⟨hcx, checks, n, htrack, hbuild⟩ := Program.reduceWith_ok h
  have ha := Program.analyze_ok hcx
  have hc := hbuilt.coherent.1
  have hmode : red.tracker.mode = .dynamic := (PhaseTracker.run_finished htrack).2.1
  refine ⟨Plan.ofThread red.analysis red.tracker t, ?_, rfl, ?_⟩
  · rw [hbuild]
    exact List.mem_map_of_mem ht
  refine ⟨sortUnique Plan.pairLe (r.sources.flatMap (Plan.openBlocks red.analysis red.tracker)),
    pairwise_sortUnique Plan.orders_pairLe _, Plan.mem_steps_of_conflict hmode hr hk, ?_⟩
  intro j hj u hu r' hr' howner calls hpath
  apply (mem_sortUnique _ _ _).mpr
  apply List.mem_flatMap.mpr
  exact ⟨j, hj, Plan.mem_openBlocks hu hr' (Plan.activeAt_of_path ha hc hsize howner hpath)⟩

/-- A worker that starts a block in a procedure and writes after it has returned. -/
def BuildStep.lateWriteSteps : List BuildStep :=
  [.proc "main", .proc "worker", .proc "step", .block 0 "entry", .block 1 "entry",
    .block 2 "entry", .op 0 (.library (.threadCreate 1)), .op 0 (.memory .write (.named "x")),
    .op 0 (.terminator .ret), .op 1 (.call 2), .op 1 (.memory .write (.named "x")),
    .op 1 (.terminator .ret), .op 2 (.memory .write (.named "x")), .op 2 (.terminator .ret)]

def Program.lateWrite : Program :=
  ((BuildStep.applyAll {} BuildStep.lateWriteSteps).toOption.getD default).1

theorem Program.built_lateWrite : Program.lateWrite.Built := by
  refine .inl ⟨BuildStep.lateWriteSteps, .lateWrite,
    [0, 1, 2, 0, 1, 2, 0, 1, 2, 3, 4, 5, 6, 7], ?_, ?_⟩
  · decide +kernel
  · decide +kernel

def Reduction.lateWrite : Reduction :=
  (Program.lateWrite.reduce .dynamic).result.toOption.getD default

theorem Program.lateWrite_path : Relation.ReflTransGen
    (Program.lateWrite.OpenStep fun c => Reduction.lateWrite.analysis.conflicts.owner? c = some 1)
    [6] [4] := by
  have hnext : Program.lateWrite.Follows 6 7 := by
    unfold Program.Follows
    decide +kernel
  have hback : Program.lateWrite.Follows 3 4 := by
    unfold Program.Follows
    decide +kernel
  have hwrite : Program.lateWrite.OpenStep
      (fun c => Reduction.lateWrite.analysis.conflicts.owner? c = some 1) [6] [7] :=
    .inner (.pass (by decide +kernel) (by decide +kernel) hnext)
  exact .tail (.single hwrite)
    (.leave (by decide +kernel) (by decide +kernel) (by decide +kernel) hback)

theorem block_of_returned_procedure_is_checked :
    (Program.lateWrite.reduce .dynamic).result = .ok .lateWrite ∧
      ∃ plan ∈ Reduction.lateWrite.plan.threads, plan.thread = 0 ∧ ∃ checks,
        (⟨1, .after, 1, .conflictGuardedYield checks⟩ : PlanStep) ∈ plan.steps ∧
        ⟨"worker", 1⟩ ∈ checks := by
  have hok : (Program.lateWrite.reduce .dynamic).result = .ok .lateWrite :=
    Checked.ok_of_toOption (by decide +kernel)
  obtain ⟨plan, hplan, hthread, blocks, -, hstep, hblocks⟩ := conflict_checks_are_complete
    (t := 0) (r := ⟨1, .dynamicConflict, 1, .after, [4, 6]⟩) Program.built_lateWrite
    (by decide +kernel) hok
    (by decide +kernel) (by decide +kernel) rfl
  have hmem : (1, 1) ∈ blocks :=
    hblocks 4 (by decide) 1 (by decide +kernel) ⟨6, .phaseShift, 1, .after, []⟩
      (by decide +kernel) (by decide +kernel) [] Program.lateWrite_path
  refine ⟨hok, plan, hplan, hthread, _, hstep, List.mem_map.mpr ⟨(1, 1), hmem, ?_⟩⟩
  decide +kernel

end YieldPlan
