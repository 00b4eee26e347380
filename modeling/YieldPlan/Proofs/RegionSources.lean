import YieldPlan.Proofs.OwnedTracking
import YieldPlan.Proofs.PhaseStability
import YieldPlan.Proofs.ProcedureMovers
import YieldPlan.Proofs.ReductionOutcome
import YieldPlan.Proofs.ThreadRequests

/-! A region acts by its kind, which joins all that is executed inside it, called procedures
included. The conflict check at its ends looks for the conflicts of the operations that are written
inside it, and for no others: what only a called procedure does is not checked for. -/

namespace YieldPlan

theorem Walk.mem_visited_of_recorded {σ : Type} {prog : Program} {P : Processor σ} {first : Point}
    {initial : Area} {w w' : Walk σ} (hstack : w.stack = []) (hareas : w.areas = {})
    (h : prog.walk P first initial w = .ok () w') {p : Point} {a : Area}
    (ha : w'.areas.get? p = some a) : p ∈ w'.visited := by
  refine walk_keeps (I := fun _ areas visited => ∀ p a, areas.get? p = some a → p ∈ visited)
    (V := fun _ => True) ?_ hstack (by simp [hareas]) trivial h p a ha
  intro w p a area s ops x s' hw _ _ _ _
  refine ⟨fun q b hq => ?_, fun _ _ => trivial⟩
  rw [Table.get?_put] at hq
  split at hq
  · next heq => exact heq ▸ List.mem_cons_self
  · exact List.mem_cons_of_mem _ (hw q b hq)

theorem Analyzed.isMemory_of_conflicts {prog : Program} {mayAlias : AliasOracle} {cx : Analysis}
    (h : Analyzed prog mayAlias cx) {o x : OpId} (hx : x ∈ cx.conflicts.conflictsWith o) :
    (prog.kind o).isMemory = true := by
  unfold Conflicts.conflictsWith at hx
  cases hget : cx.conflicts.table.get? o with
  | none => simp [hget] at hx
  | some found => exact ((Program.conflicts_ok h.conflicts).2 o found hget).1

namespace PhaseTracker

open Program BlockStarts

variable {cx : Analysis} {pt : PhaseTracker} {t : ThreadId} {w₀ w : Walk Tracking}

/-- The tracker has come to the operations ahead in a block, in this area or a larger one: it carries
the area that is recorded for a point along the block, and the areas in which it came to the point
before were smaller. -/
inductive Arrives (cx : Analysis) (pt : PhaseTracker) (t : ThreadId) :
    Point → List OpId → Area → Prop where
  | enter {p a c ops} : pt.areaAt? t p = some a → c ≤ a → p.ops? cx.prog = some ops →
      Arrives cx pt t p ops c
  | pass {p o rest c} : Arrives cx pt t p (o :: rest) c → Passes cx.prog o →
      Arrives cx pt t p rest (phaseAfter cx pt o c)

theorem fileAll_absorbs {placement : Placement} {sources ops : List OpId}
    (hsorted : sortNats sources = sources) {s s' : Tracking} {u : Unit}
    (h : fileAll cx t .dynamicConflict placement sources ops s = .ok u s') :
    ∀ o ∈ ops, s'.requests.Absorbs t o .dynamicConflict sources := by
  induction ops generalizing s with
  | nil => simp
  | cons o rest ih =>
    obtain ⟨_, v, hfile, hrest⟩ := Action.bind_ok.mp h
    intro x hx
    rcases List.mem_cons.mp hx with rfl | hx
    · have habsorbs : v.requests.Absorbs t x .dynamicConflict sources := by
        cases hfile
        exact file_absorbs s.requests t x .dynamicConflict placement hsorted
      exact (repeats_fileAll hsorted rest _ _ _ hrest).1.absorbs habsorbs
    · exact ih hrest x hx

theorem visit_absorbs {b : OpId} {a : Area} {placement : Placement} {s s' : Tracking} {st : Step}
    (hk : cx.prog.kind b = .library .atomicBegin)
    (hdemand : demandAt cx pt b a = some (.dynamicConflict, placement))
    (h : visit cx pt t b a s = .ok st s') :
    ∃ region, regionAt cx pt b = .ok region ∧ ∀ e ∈ region.ends,
      s'.requests.Absorbs t e .dynamicConflict (regionSources cx region) := by
  have hregion : visitRegion cx pt t b a (recordArea b a s) = .ok st s' := by
    rcases visit_cases h with ⟨hy, -⟩ | ⟨-, h₁⟩ | ⟨he, -⟩ | ⟨-, hbegin, -⟩
    · simp [hk] at hy
    · exact h₁
    · simp [hk] at he
    · exact absurd hk hbegin
  obtain ⟨region, v, hat, -, -, -, hcases⟩ := visitRegion_cases hregion
  refine ⟨region, hat, ?_⟩
  rw [demandAt, moverAt, opens?_of_region hk hat] at hdemand
  rcases hcases with ⟨hd, -⟩ | ⟨kind, side, hd, hfile⟩
  · cases hd.symm.trans hdemand
  · cases hd.symm.trans hdemand
    exact fileAll_absorbs (sortNats_regionSources region) hfile

theorem Kept.visited_of_recorded (h : Kept cx pt t w₀ w) {p : Point} {a : Area}
    (ha : pt.areaAt? t p = some a) : w.areas.get? p = some a ∧ p ∈ w.visited := by
  obtain ⟨o, s, -, -, hwalk⟩ := walkThread_cases h.walked
  have hrecorded : w.areas.get? p = some a := by simpa [areaAt?, h.recorded] using ha
  exact ⟨hrecorded, Walk.mem_visited_of_recorded (w := { w₀ with state := s }) h.stack h.areas hwalk
    hrecorded⟩

theorem Kept.ran (h : Kept cx pt t w₀ w) (hsorted : SortedConflicts cx) {p : Point} {a : Area}
    (ha : pt.areaAt? t p = some a) : ∃ ops x, p.ops? cx.prog = some ops ∧
      Done (Walk.runBlock cx.prog (processor cx pt t) (cx.prog.block p.block) a [] ops) x w.state := by
  obtain ⟨o, s, -, -, hwalk⟩ := walkThread_cases h.walked
  obtain ⟨hrecorded, hvisited⟩ := h.visited_of_recorded ha
  obtain ⟨-, -, -, hran⟩ := Walk.walk_covers (w := { w₀ with state := s })
    (processor_keeps hsorted) h.visited hwalk
  obtain ⟨a', ops, out, next, u, u', ha', hops, hrun, hkeeps, -⟩ := hran p hvisited
  obtain rfl : a = a' := Option.some.inj (hrecorded.symm.trans ha')
  exact ⟨ops, (out, next), hops, u, u', hrun, hkeeps⟩

/-- Wherever the tracker comes, it runs what is ahead. -/
theorem Arrives.done (hkept : Kept cx pt t w₀ w) (hsorted : SortedConflicts cx) {p : Point}
    {rest : List OpId} {c : Area} (h : Arrives cx pt t p rest c) :
    ∃ a succs x, c ≤ a ∧ Done (Walk.runBlock cx.prog (processor cx pt t)
      (cx.prog.block p.block) a succs rest) x w.state := by
  induction h with
  | enter ha hle hops =>
    obtain ⟨ops', x, hops', hdone⟩ := hkept.ran hsorted ha
    obtain rfl := Option.some.inj (hops.symm.trans hops')
    exact ⟨_, [], x, hle, hdone⟩
  | pass _ hpasses ih =>
    obtain ⟨a, succs, x, hle, u, u', hrun, hkeeps⟩ := ih
    obtain ⟨l, v, hrest⟩ := runBlock_pass hpasses hrun
    exact ⟨_, l, x, phaseAfter_mono cx pt _ hle, v, u', hrest, hkeeps⟩

theorem demandAt_dynamicConflict (hmode : pt.mode = .dynamic) {o : OpId} {a c : Area} (hle : c ≤ a)
    {placement : Placement} (h : demandAt cx pt o c = some (.dynamicConflict, placement)) :
    demandAt cx pt o a = some (.dynamicConflict, placement) := by
  obtain ⟨kind, hdemand, hstrength⟩ := demandAt_mono cx pt hle h
  have hkind : kind = .dynamicConflict := by
    have hstatic : kind ≠ .static := by
      rw [demandAt, hmode] at hdemand
      exact (transition_dynamic hdemand).1
    cases kind <;> simp_all [BlockKind.strength]
  rw [hdemand, hkind]

/-- Where the tracker comes to a region that demands a conflict check, the thread has a request with
the sources of the region at every end. -/
theorem Arrives.region_request (hkept : Kept cx pt t w₀ w) (hsorted : SortedConflicts cx)
    (hmode : pt.mode = .dynamic) {p : Point} {b : OpId} {rest : List OpId} {c : Area}
    {placement : Placement} (h : Arrives cx pt t p (b :: rest) c)
    (hk : cx.prog.kind b = .library .atomicBegin)
    (hdemand : demandAt cx pt b c = some (.dynamicConflict, placement)) :
    ∃ region, regionAt cx pt b = .ok region ∧ ∀ e ∈ region.ends, ∃ r,
      pt.requests.get? t e = some r ∧ r.kind = .dynamicConflict ∧
      ∀ x ∈ regionSources cx region, x ∈ r.sources := by
  obtain ⟨a, succs, x, hle, u, u', hrun, hkeeps⟩ := h.done hkept hsorted
  obtain ⟨st, v, hvisit, hlater⟩ := Walk.runBlock_visits (processor_keeps hsorted) hrun
  obtain ⟨region, hat, habsorbs⟩ :=
    visit_absorbs hk (demandAt_dynamicConflict hmode hle hdemand) hvisit
  refine ⟨region, hat, fun e he => ?_⟩
  obtain ⟨r, hr, hcovers⟩ := (hlater.trans hkeeps).absorbs (habsorbs e he)
  have hget : pt.requests.get? t e = some r := by
    rw [get?, hkept.requests]
    exact hr.found
  obtain ⟨_, -, haccounted⟩ := hkept.accounted hmode
  have hstatic : r.kind ≠ .static := (haccounted.fair r (List.mem_of_find?_eq_some hget)).1
  rcases covers_iff.mp hcovers with hlt | ⟨hkind, hsources⟩
  · cases hkind : r.kind <;> simp_all [BlockKind.strength]
  · refine ⟨r, hget, hkind, fun y hy => ?_⟩
    rw [← hsources]
    exact mem_sortNats.mpr (List.mem_append_right _ hy)

/-- The operation conflicts with `o`, or with one written inside a region that `o` closes. -/
def Watched (cx : Analysis) (pt : PhaseTracker) (o x : OpId) : Prop :=
  x ∈ cx.conflicts.conflictsWith o ∨ ∃ b region, opens? cx pt b = some region ∧
    o ∈ region.ends ∧ x ∈ regionSources cx region

def Sourced (cx : Analysis) (pt : PhaseTracker) (t : ThreadId) (s : Tracking) : Prop :=
  ∀ r ∈ s.requests.ofThread t, ∀ x ∈ r.sources, Watched cx pt r.op x

theorem file_sourced {o : OpId} {kind : BlockKind} {placement : Placement} {sources : List OpId}
    (hsources : ∀ x ∈ sources, Watched cx pt o x) {s s' : Tracking} {u : Unit}
    (h : file cx t o kind placement sources s = .ok u s') (hs : Sourced cx pt t s) :
    Sourced cx pt t s' := by
  have hwatched : ∀ x ∈ if kind = .dynamicConflict then sources else [], Watched cx pt o x := by
    split
    · exact hsources
    · simp
  cases h
  intro r hr x hx
  rcases mem_ofThread_file hr with ⟨-, rfl⟩ | ⟨hr, -⟩
  · rw [op_after]
    rcases mem_sources_after hx with hx | ⟨old, hold, hx⟩
    · exact hwatched x hx
    · rw [← op_of_get? hold]
      exact hs old (List.mem_of_find?_eq_some hold) x hx
  · exact hs r hr x hx

theorem fileAll_sourced {kind : BlockKind} {placement : Placement} {sources ops : List OpId}
    (hsources : ∀ o ∈ ops, ∀ x ∈ sources, Watched cx pt o x) {s s' : Tracking} {u : Unit}
    (h : fileAll cx t kind placement sources ops s = .ok u s') (hs : Sourced cx pt t s) :
    Sourced cx pt t s' := by
  induction ops generalizing s with
  | nil =>
    cases h
    exact hs
  | cons o rest ih =>
    obtain ⟨_, v, hfile, hrest⟩ := Action.bind_ok.mp h
    obtain ⟨ho, hops⟩ := List.forall_mem_cons.mp hsources
    exact ih hops hrest (file_sourced ho hfile hs)

theorem visit_sourced {o : OpId} {a : Area} {s s' : Tracking} {st : Step}
    (h : visit cx pt t o a s = .ok st s') (hs : Sourced cx pt t s) : Sourced cx pt t s' := by
  have hrecorded : Sourced cx pt t (recordArea o a s) := hs
  rcases visit_cases h with ⟨-, -, rfl⟩ | ⟨hk, h₁⟩ | ⟨-, h₁⟩ | ⟨-, -, h₁⟩
  · exact hrecorded
  · obtain ⟨region, v, hat, -, hsame, -, hcases⟩ := visitRegion_cases h₁
    have hv : Sourced cx pt t v := by
      rw [Sourced, hsame]
      exact hrecorded
    rcases hcases with ⟨-, rfl⟩ | ⟨kind, placement, -, hfile⟩
    · exact hv
    · refine fileAll_sourced (fun e he x hx => ?_) hfile hv
      exact .inr ⟨o, region, opens?_of_region hk hat, he, hx⟩
  · obtain ⟨-, -, hsame⟩ := visitStrayEnd_ok h₁
    rw [Sourced, hsame]
    exact hrecorded
  · obtain ⟨-, ⟨-, rfl⟩ | ⟨kind, placement, -, hfile⟩⟩ := visitMover_cases h₁
    · exact hrecorded
    · exact file_sourced (fun x hx => .inl hx) hfile hrecorded

theorem processor_sourced :
    (processor cx pt t).Respects fun s s' => Sourced cx pt t s → Sourced cx pt t s' where
  refl _ := id
  trans h k := k ∘ h
  visit := visit_sourced
  afterCall h := (Action.pure_ok.mp h).2 ▸ id
  afterReturn h := (Action.pure_ok.mp h).2 ▸ id
  revisit := by
    intro p r a edge s u s' h
    rcases revisit_cases h with rfl | ⟨o, -, h₁⟩
    · exact id
    · exact file_sourced (by simp) h₁

theorem Kept.sourced (h : Kept cx pt t w₀ w) :
    ∀ r ∈ pt.requests.ofThread t, ∀ x ∈ r.sources, Watched cx pt r.op x := by
  obtain ⟨o, s, -, hfile, hwalk⟩ := walkThread_cases h.walked
  have hstart : Sourced cx pt t w₀.state := by
    unfold Sourced
    simp [h.unrequested]
  have hs : Sourced cx pt t s := file_sourced (by simp) hfile hstart
  rw [h.requests]
  exact Walk.walk_respects processor_sourced hwalk hs

theorem mem_regionSources {mayAlias : AliasOracle} (h : Analyzed cx.prog mayAlias cx)
    (hc : cx.prog.Coherent) {b : OpId} (hlt : b < cx.prog.ops.size) {region : AtomicRegion}
    (hscan : AtomicRegion.scan cx.prog cx.movability b = .ok region) {x : OpId} :
    x ∈ regionSources cx region ↔ ∃ o d, cx.prog.Inside (fun _ => True) b o d ∧
      x ∈ cx.conflicts.conflictsWith o := by
  have hs := h.shaped hc
  rw [regionSources, mem_sortNats, List.mem_flatMap]
  constructor
  · rintro ⟨o, ho, hx⟩
    obtain ⟨d, hin⟩ := (AtomicRegion.scan_sound hs hlt hscan).1 o ho
    exact ⟨o, d, hin, hx⟩
  · rintro ⟨o, d, hin, hx⟩
    have hmemory := h.isMemory_of_conflicts hx
    refine ⟨o, AtomicRegion.scan_inside hs hlt hscan hin ?_ ?_, hx⟩
    · intro hbegin
      simp [hbegin, OpKind.isMemory] at hmemory
    · intro hend
      simp [hend, OpKind.isMemory] at hmemory

end PhaseTracker

open PhaseTracker in
/-- A region that demands a conflict check acts by a kind that joins all that is executed inside it,
in called procedures too. Each of its ends has a request that checks, and among the sources are the
conflicts of all operations written inside the region; there are no others but those of further
regions with the same end. -/
theorem region_checks_conflicts_of_own_operations {prog : Program} (hbuilt : prog.Built)
    {mayAlias : AliasOracle} {red : Reduction}
    (h : (prog.reduceWith mayAlias .dynamic).result = .ok red) {t : ThreadId}
    (ht : t ∈ red.analysis.threads.ids) {p : Point} {b : OpId} {rest : List OpId} {c : Area}
    {placement : Placement} (harrives : Arrives red.analysis red.tracker t p (b :: rest) c)
    (hk : prog.kind b = .library .atomicBegin)
    (hdemand : demandAt red.analysis red.tracker b c = some (.dynamicConflict, placement)) :
    (∀ k, moverAt red.analysis red.tracker b ≤ k ↔
      ∀ o, prog.Within b o → red.analysis.movability.movable prog o ≤ k) ∧
    ∀ e, prog.Closes (fun _ => True) b e → ∃ r, red.tracker.requests.get? t e = some r ∧
      r.kind = .dynamicConflict ∧
      (∀ o d, prog.Inside (fun _ => True) b o d →
        ∀ x ∈ red.analysis.conflicts.conflictsWith o, x ∈ r.sources) ∧
      ∀ x ∈ r.sources, ∃ b' o d, prog.kind b' = .library .atomicBegin ∧
        prog.Closes (fun _ => True) b' e ∧ prog.Inside (fun _ => True) b' o d ∧
        x ∈ red.analysis.conflicts.conflictsWith o := by
  obtain ⟨hcx, checks, n, hrun, -⟩ := Program.reduceWith_ok h
  have ha := Program.analyze_ok hcx
  have hc := hbuilt.coherent.1
  have hs := ha.shaped hc
  have hscanned := scanned_of_run hrun
  obtain ⟨-, hmode, -⟩ := run_finished hrun
  obtain ⟨w₀, w, hkept⟩ := run_kept hrun ht
  obtain rfl := ha.prog_eq
  obtain ⟨region, hat, hrequests⟩ :=
    harrives.region_request hkept ha.sortedConflicts hmode hk hdemand
  have hscan := (hscanned.regionAt b).symm.trans hat
  have hlt : b < red.analysis.prog.ops.size := Program.lt_of_kind_ne (by simp [hk])
  constructor
  · rw [moverAt, opens?_of_region hk hat]
    apply AtomicRegion.kind_le_iff hs hlt _ hscan
    intro o f hcallee
    exact ha.joins hc
      (ha.targets o (Program.lt_of_callee? hcallee) f (Program.callEdge?_of_callee? hcallee))
  intro e he
  obtain ⟨r, hr, hkind, hsources⟩ := hrequests e (AtomicRegion.scan_complete hs hlt hscan he)
  refine ⟨r, hr, hkind, ?_, ?_⟩
  · intro o d hin x hx
    exact hsources x ((mem_regionSources ha hc hlt hscan).mpr ⟨o, d, hin, hx⟩)
  · intro x hx
    have hwatched := hkept.sourced r (List.mem_of_find?_eq_some hr) x hx
    rw [BlockStarts.op_of_get? hr] at hwatched
    rcases hwatched with hown | ⟨b', found, hopen, he', hx⟩
    · have hmemory := ha.isMemory_of_conflicts hown
      simp [he.1, OpKind.isMemory] at hmemory
    · obtain ⟨hk', hat'⟩ := opens?_ok hopen
      have hlt' : b' < red.analysis.prog.ops.size := Program.lt_of_kind_ne (by simp [hk'])
      have hscan' := (hscanned.regionAt b').symm.trans hat'
      obtain ⟨o, d, hin, hconflict⟩ := (mem_regionSources ha hc hlt' hscan').mp hx
      exact ⟨b', o, d, hk', (AtomicRegion.scan_sound hs hlt' hscan').2 e he', hin, hconflict⟩

theorem PhaseTracker.countedWrite_arrives :
    Arrives Reduction.countedWrite.analysis Reduction.countedWrite.tracker 0 ⟨0, 2⟩ [2, 3, 4, 5, 6]
      .post :=
  .enter (a := .post) (by decide +kernel) (by decide) (by decide +kernel)

theorem Program.countedWrite_follows : ∀ o ∈ [2, 3, 4], Program.countedWrite.Follows o (o + 1) := by
  unfold Program.Follows
  decide +kernel

theorem Program.countedWrite_inside : Program.countedWrite.Inside (fun _ => True) 2 4 0 :=
  .next (.first (countedWrite_follows 2 (by decide))) (by decide +kernel) (fun _ _ => trivial) rfl
    (countedWrite_follows 3 (by decide))

theorem Program.countedWrite_closes : Program.countedWrite.Closes (fun _ => True) 2 5 :=
  ⟨by decide +kernel, .next countedWrite_inside (by decide +kernel) (fun _ _ => trivial) rfl
    (countedWrite_follows 4 (by decide))⟩

open PhaseTracker in
/-- The write in the region races with that of the other thread. -/
theorem counted_write_is_checked :
    (Program.countedWrite.reduce .dynamic).result = .ok .countedWrite ∧
      Program.countedWrite.Closes (fun _ => True) 2 5 ∧
      7 ∈ Reduction.countedWrite.analysis.conflicts.conflictsWith 4 ∧
      ∃ r, Reduction.countedWrite.tracker.requests.get? 0 5 = some r ∧ r.kind = .dynamicConflict ∧
        7 ∈ r.sources := by
  have hok : (Program.countedWrite.reduce .dynamic).result = .ok .countedWrite :=
    Checked.ok_of_toOption (by decide +kernel)
  have hconflict : 7 ∈ Reduction.countedWrite.analysis.conflicts.conflictsWith 4 := by
    decide +kernel
  have hdemand : demandAt Reduction.countedWrite.analysis Reduction.countedWrite.tracker 2 .post =
      some (.dynamicConflict, .after) := by
    decide +kernel
  obtain ⟨-, hends⟩ := region_checks_conflicts_of_own_operations Program.built_countedWrite hok
    (by decide +kernel) countedWrite_arrives (by decide +kernel) hdemand
  obtain ⟨r, hr, hkind, hsources, -⟩ := hends 5 Program.countedWrite_closes
  refine ⟨hok, Program.countedWrite_closes, hconflict, r, hr, hkind, ?_⟩
  exact hsources 4 0 Program.countedWrite_inside 7 hconflict

/-- A thread that calls in a region a procedure that writes. -/
def BuildStep.calledWriteSteps : List BuildStep :=
  [.proc "main", .proc "worker", .proc "helper", .block 0 "entry", .block 1 "entry",
    .block 2 "entry", .op 0 (.library (.threadCreate 1)), .op 0 (.library .atomicBegin),
    .op 0 (.call 2), .op 0 (.library .atomicEnd), .op 0 (.terminator .ret),
    .op 1 (.memory .write (.named "x")), .op 1 (.terminator .ret),
    .op 2 (.memory .write (.named "x")), .op 2 (.terminator .ret)]

def Program.calledWrite : Program :=
  ((BuildStep.applyAll {} BuildStep.calledWriteSteps).toOption.getD default).1

theorem Program.built_calledWrite : Program.calledWrite.Built := by
  refine .inl ⟨BuildStep.calledWriteSteps, .calledWrite,
    [0, 1, 2, 0, 1, 2, 0, 1, 2, 3, 4, 5, 6, 7, 8], ?_, ?_⟩
  · decide +kernel
  · decide +kernel

def Reduction.calledWrite : Reduction :=
  (Program.calledWrite.reduce .dynamic).result.toOption.getD default

theorem PhaseTracker.calledWrite_arrives :
    Arrives Reduction.calledWrite.analysis Reduction.calledWrite.tracker 0 ⟨0, 0⟩ [1, 2, 3, 4]
      .post := by
  have harrives : Arrives Reduction.calledWrite.analysis Reduction.calledWrite.tracker 0 ⟨0, 0⟩
      [0, 1, 2, 3, 4] .pre :=
    .enter (a := .pre) (by decide +kernel) (by decide) (by decide +kernel)
  have hpasses : Passes Reduction.calledWrite.analysis.prog 0 := by
    unfold Passes
    decide +kernel
  have hphase : phaseAfter Reduction.calledWrite.analysis Reduction.calledWrite.tracker 0 .pre =
      .post := by
    decide +kernel
  rw [← hphase]
  exact harrives.pass hpasses

open PhaseTracker in
/-- The called procedure writes what the other thread writes, and makes the region one that does not
move; yet the check at its end looks for nothing. -/
theorem conflicts_of_called_procedure_are_missed :
    Program.calledWrite.Built ∧ ∃ red, (Program.calledWrite.reduce .dynamic).result = .ok red ∧
      0 ∈ red.analysis.threads.ids ∧
      Arrives red.analysis red.tracker 0 ⟨0, 0⟩ [1, 2, 3, 4] .post ∧
      Program.calledWrite.kind 1 = .library .atomicBegin ∧
      demandAt red.analysis red.tracker 1 .post = some (.dynamicConflict, .after) ∧
      Program.calledWrite.Closes (fun _ => True) 1 3 ∧
      Program.calledWrite.Within 1 7 ∧ 5 ∈ red.analysis.conflicts.conflictsWith 7 ∧
      ∃ r, red.tracker.requests.get? 0 3 = some r ∧ r.kind = .dynamicConflict ∧ r.sources = [] := by
  have hok : (Program.calledWrite.reduce .dynamic).result = .ok .calledWrite :=
    Checked.ok_of_toOption (by decide +kernel)
  have hfollows : ∀ o ∈ [1, 2], Program.calledWrite.Follows o (o + 1) := by
    unfold Program.Follows
    decide +kernel
  have hcall : Program.calledWrite.Inside (fun _ => True) 1 2 0 := .first (hfollows 1 (by decide))
  have hcloses : Program.calledWrite.Closes (fun _ => True) 1 3 :=
    ⟨by decide +kernel, .next hcall (by decide +kernel) (fun _ _ => trivial) rfl
      (hfollows 2 (by decide))⟩
  have hhelper : Program.calledWrite.procOf 7 = 2 := by decide +kernel
  have hwithin : Program.calledWrite.Within 1 7 :=
    .inr ⟨2, 0, 2, hcall, by decide +kernel, by decide +kernel, hhelper ▸ .refl⟩
  refine ⟨Program.built_calledWrite, _, hok, ?_, calledWrite_arrives, ?_, ?_, hcloses, hwithin, ?_,
    ?_⟩
  · decide +kernel
  · decide +kernel
  · decide +kernel
  · decide +kernel
  · exact ⟨⟨3, .dynamicConflict, 1, .after, []⟩, by decide +kernel, rfl, rfl⟩

end YieldPlan
