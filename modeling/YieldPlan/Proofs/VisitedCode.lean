import YieldPlan.Proofs.OwnershipExact
import YieldPlan.Proofs.RegionPaths

/-! A thread executes an operation, or a region as a whole from its begin marker to an end marker
that closes it; its calls return to themselves. All that it executes outside of regions has been
visited by the tracker, as long as it does not return to a call that is written inside a region
while it executes that call on its own. -/

namespace YieldPlan

namespace Program

variable (prog : Program)

/-- What a thread executes next, with the calls that it is in. Only calls of which `resumes` holds are
returned to. -/
inductive UnitStep (resumes : OpId → Prop) : List OpId → Visit → List OpId → Prop where
  | single {o calls s} : prog.ThreadStep (o :: calls) s → prog.kind o ≠ .library .atomicBegin →
      (∀ c rest, prog.kind o = .terminator .ret → calls = c :: rest → resumes c) →
      UnitStep resumes (o :: calls) ⟨o, o⟩ s
  | region {o e o' calls} : prog.kind o = .library .atomicBegin → prog.Closes prog.Returnable o e →
      prog.Follows e o' → UnitStep resumes (o :: calls) ⟨o, e⟩ (o' :: calls)

/-- What a thread of the procedure has executed from its first point on, and where it is. -/
inductive Course (root : ProcId) (resumes : OpId → Prop) : List Visit → List OpId → Prop where
  | start {o} : (prog.firstPoint root).op? prog = some o → Course root resumes [] [o]
  | step {vs v s s'} : Course root resumes vs s → prog.UnitStep resumes s v s' →
      Course root resumes (vs ++ [v]) s'

variable {prog} {root : ProcId} {resumes : OpId → Prop}

theorem Course.before {vs : List Visit} {s : List OpId} (h : prog.Course root resumes vs s) :
    ∀ v ∈ vs, ∃ vs' calls, prog.Course root resumes vs' (v.op :: calls) := by
  induction h with
  | start _ => simp
  | @step vs v s s' hcourse hstep ih =>
    intro u hu
    rcases List.mem_append.mp hu with hu | hu
    · exact ih u hu
    · obtain rfl := List.mem_singleton.mp hu
      cases hstep with
      | single => exact ⟨vs, _, hcourse⟩
      | region => exact ⟨vs, _, hcourse⟩

end Program

/-- The operation is not written inside a region that some thread opens. -/
def Analysis.OutsideRegions (cx : Analysis) (o : OpId) : Prop :=
  ∀ b d, cx.prog.kind b = .library .atomicBegin → (∃ u, cx.conflicts.owner? b = some u) →
    ¬ cx.prog.Inside (fun _ => True) b o d

namespace PhaseTracker

open Program

variable {cx : Analysis} {pt pt' : PhaseTracker} {t : ThreadId} {resumes : OpId → Prop}

structure Marked (cx : Analysis) (pt : PhaseTracker) (markers : List OpId) : Prop where
  region : ∀ o ∈ markers, ∃ region, pt.regions.get? o = some region
  inside : ∀ c ∈ pt.inRegion, ∃ o ∈ markers, ∃ region,
    AtomicRegion.scan cx.prog cx.movability o = .ok region ∧ c ∈ region.ops

theorem addRegions_marked {before markers : List OpId}
    (h : (addRegions cx pt markers).result = .ok pt') (hpt : Marked cx pt before) :
    Marked cx pt' (before ++ markers) := by
  induction markers generalizing pt before with
  | nil =>
    cases h
    rw [List.append_nil]
    exact hpt
  | cons o rest ih =>
    rw [List.append_cons]
    unfold addRegions at h
    split at h
    · next hknown =>
      apply ih h
      constructor
      · intro x hx
        rcases List.mem_append.mp hx with hx | hx
        · exact hpt.region x hx
        · rw [List.mem_singleton.mp hx]
          exact Option.isSome_iff_exists.mp hknown
      · intro c hc
        obtain ⟨b, hb, hregion⟩ := hpt.inside c hc
        exact ⟨b, List.mem_append_left _ hb, hregion⟩
    · rw [Traced.result_bind, scanRegion_result] at h
      obtain ⟨region, hscan, h⟩ := Checked.bind_ok.mp h
      apply ih h
      constructor
      · intro x hx
        rw [Table.get?_put]
        by_cases hxo : x = o
        · exact ⟨region, if_pos hxo⟩
        · rw [if_neg hxo]
          exact hpt.region x ((List.mem_append.mp hx).resolve_right (by simpa using hxo))
      · intro c hc
        rcases List.mem_append.mp hc with hc | hc
        · exact ⟨o, by simp, region, hscan, hc⟩
        · obtain ⟨b, hb, hregion⟩ := hpt.inside c hc
          exact ⟨b, List.mem_append_left _ hb, hregion⟩

theorem run_marked {mode : Mode} {checks : Bool} {n : Nat}
    (h : (run cx { mode, conflictChecks := checks }).result = .ok (pt', n)) :
    Marked cx pt' (beginMarkers cx) := by
  obtain ⟨pt₁, h₁, h₂⟩ := run_cases h
  obtain ⟨hsame, -⟩ := addThreads_ok h₂
  have hfresh : Marked cx { mode, conflictChecks := checks } [] := ⟨by simp, by simp⟩
  have hmarked := addRegions_marked h₁ hfresh
  rw [List.nil_append] at hmarked
  constructor
  · rw [hsame.regions]
    exact hmarked.region
  · rw [hsame.inRegion]
    exact hmarked.inside

theorem mem_beginMarkers {o : OpId} (hlt : o < cx.prog.ops.size)
    (hk : cx.prog.kind o = .library .atomicBegin) (ho : cx.conflicts.owner? o = some t) :
    o ∈ beginMarkers cx := by
  apply List.mem_filter.mpr
  constructor
  · exact List.mem_range.mpr hlt
  · simp [hk, ho]

theorem Marked.not_inRegion (h : Marked cx pt (beginMarkers cx)) (hs : cx.prog.Shaped) {c : OpId}
    (hc : cx.OutsideRegions c) : c ∉ pt.inRegion := by
  intro hmem
  obtain ⟨b, hb, region, hscan, hregion⟩ := h.inside c hmem
  obtain ⟨hlt, hmarker⟩ := List.mem_filter.mp hb
  rw [Bool.and_eq_true, decide_eq_true_eq] at hmarker
  obtain ⟨hk, howned⟩ := hmarker
  obtain ⟨d, hinside⟩ := (AtomicRegion.scan_sound hs (List.mem_range.mp hlt) hscan).1 c hregion
  exact hc b d hk (Option.isSome_iff_exists.mp howned) hinside

namespace Grounded

variable (g : Grounded cx pt t) (hmarked : Marked cx pt (beginMarkers cx))
  (howns : ∀ o, Reached cx t o → cx.conflicts.owner? o = some t)
  (hresumes : ∀ c, resumes c → c ∉ pt.inRegion)

include g hmarked howns hresumes

theorem unit_step {vs : List Visit} {v : Visit} {o : OpId} {calls s : List OpId}
    (h : Arrived cx pt t vs o calls) (hstep : cx.prog.UnitStep resumes (o :: calls) v s) :
    ∃ o' calls', s = o' :: calls' ∧ Arrived cx pt t (vs ++ [v]) o' calls' := by
  cases hstep with
  | single hthread hbegin hback =>
    cases hthread with
    | pass hterm hcall hf => exact ⟨_, _, rfl, g.pass h ⟨hterm, hcall, hbegin⟩ hf⟩
    | branch hk hs ho => exact ⟨_, _, rfl, g.branch h hk hs ho⟩
    | call hk he => exact ⟨_, _, rfl, g.call h hk he⟩
    | ret hk hf => exact ⟨_, _, rfl, g.ret h hk (hresumes _ (hback _ _ hk rfl)) hf⟩
  | @region _ e o' _ hk hcloses hf =>
    have hlt := g.lt_of_arrived h
    obtain ⟨found, hfound⟩ :=
      hmarked.region o (mem_beginMarkers hlt hk (howns o h.reached))
    have hscan := g.scanned o found hfound
    have he : e ∈ found.ends := by
      apply AtomicRegion.scan_complete g.shaped hlt hscan
      exact hcloses.mono fun _ _ _ _ => trivial
    exact ⟨_, _, rfl, g.region h hk hscan he (hcloses.2.level hk) hf⟩

/-- A course of the thread is followed by the tracker. -/
theorem follows_course (hproc : (cx.threads.get t).proc < cx.prog.procs.size) {vs : List Visit}
    {s : List OpId} (h : cx.prog.Course (cx.threads.get t).proc resumes vs s) :
    ∃ o calls, s = o :: calls ∧ Arrived cx pt t vs o calls := by
  induction h with
  | @start o ho =>
    obtain ⟨rest, hops⟩ := ops?_of_opAt? ho
    refine ⟨o, [], rfl, ⟨[], [], rfl, by simp, _, rest, .start hops⟩, ⟨o, ho, .refl⟩, ?_⟩
    show cx.prog.procOf o = _
    rw [procOf, (g.shaped.opAt?_iff.mp ho).2.1]
    exact (g.shaped.firstPoint_ok hproc).2
  | step _ hstep ih =>
    obtain ⟨o, calls, rfl, harrived⟩ := ih
    exact g.unit_step hmarked howns hresumes harrived hstep

end Grounded

end PhaseTracker

open PhaseTracker in
/-- Every operation that a thread executes outside of regions has an area, if the thread then returns
to no call that is written inside a region. -/
theorem executed_operations_have_areas {prog : Program} (hbuilt : prog.Built)
    (hsize : prog.ops.size ≤ BitMatrix.maxRows) {mayAlias : AliasOracle} {mode : Mode}
    {red : Reduction} (h : (prog.reduceWith mayAlias mode).result = .ok red) {t : ThreadId}
    (ht : t ∈ red.analysis.threads.ids) {vs : List Visit} {o : OpId} {calls : List OpId}
    (hcourse : prog.Course (red.analysis.threads.get t).proc red.analysis.OutsideRegions vs
      (o :: calls)) :
    (∃ a, red.tracker.area? o = some a) ∧ ∀ v ∈ vs, ∃ a, red.tracker.area? v.op = some a := by
  obtain ⟨hcx, checks, n, hrun, -⟩ := Program.reduceWith_ok h
  have ha := Program.analyze_ok hcx
  have hc := hbuilt.coherent.1
  have hs := ha.shaped hc
  have g := hbuilt.grounded hsize hcx (scanned_of_run hrun) ht
  have hmarked := run_marked hrun
  obtain ⟨-, -, hwalks⟩ := run_finished hrun
  obtain ⟨points, areas, -, hfinished⟩ := hwalks t ht
  obtain rfl := ha.prog_eq
  have howns : ∀ x, Reached red.analysis t x → red.analysis.conflicts.owner? x = some t :=
    fun x hx => (ha.owner?_iff hc).mpr ⟨ht, hx⟩
  have hvisited : ∀ {vs x calls}, red.analysis.prog.Course (red.analysis.threads.get t).proc
      red.analysis.OutsideRegions vs (x :: calls) → ∃ a, red.tracker.area? x = some a := by
    intro vs x calls hcourse
    obtain ⟨x', calls', heq, harrived⟩ := g.follows_course hmarked howns
      (fun c => hmarked.not_inRegion hs) (ha.proc_lt ht) hcourse
    obtain ⟨rfl, rfl⟩ := List.cons.inj heq
    obtain ⟨_, _, -, -, p, rest, htrail⟩ := harrived.trail
    obtain ⟨a, harea, -⟩ := (htrail.ahead hfinished).1.visit.area
    exact ⟨a, harea⟩
  constructor
  · exact hvisited hcourse
  · intro v hv
    obtain ⟨vs', calls', hbefore⟩ := hcourse.before v hv
    exact hvisited hbefore

theorem Program.Inside.after {prog : Program} (hc : prog.Coherent)
    (hstraight : ∀ b < prog.blocks.size, (prog.block b).succs = []) {skips : ProcId → Prop}
    {start o : OpId} {d : Nat} (h : prog.Inside skips start o d) :
    (prog.op start).position < (prog.op o).position := by
  induction h with
  | first hf =>
    have := (hc.follows_iff.mp hf).2.2
    omega
  | next _ _ _ _ hf ih =>
    have := (hc.follows_iff.mp hf).2.2
    omega
  | branch _ _ hsucc _ _ =>
    rw [Succ, hstraight _ (lt_of_succ hsucc)] at hsucc
    cases hsucc

/-- A thread that calls a procedure and then writes in a region. -/
def BuildStep.preparedWriteSteps : List BuildStep :=
  [.proc "main", .proc "prepare", .block 0 "entry", .block 1 "entry", .op 0 (.call 1),
    .op 0 (.library .atomicBegin), .op 0 (.memory .write (.named "x")), .op 0 (.library .atomicEnd),
    .op 0 (.terminator .ret), .op 1 .local, .op 1 (.terminator .ret)]

def Program.preparedWrite : Program :=
  ((BuildStep.applyAll {} BuildStep.preparedWriteSteps).toOption.getD default).1

theorem Program.built_preparedWrite : Program.preparedWrite.Built := by
  refine .inl ⟨BuildStep.preparedWriteSteps, .preparedWrite,
    [0, 1, 0, 1, 0, 1, 2, 3, 4, 5, 6], ?_, ?_⟩
  · decide +kernel
  · decide +kernel

theorem Program.Course.single {prog : Program} {root : ProcId} {resumes : OpId → Prop}
    {vs : List Visit} {o : OpId} {calls s : List OpId}
    (h : prog.Course root resumes vs (o :: calls)) (hstep : prog.ThreadStep (o :: calls) s)
    (hk : prog.kind o ≠ .library .atomicBegin ∧ prog.kind o ≠ .terminator .ret) :
    prog.Course root resumes (vs ++ [⟨o, o⟩]) s :=
  .step h (.single hstep hk.1 fun _ _ hret => absurd hret hk.2)

theorem Program.preparedWrite_course {resumes : OpId → Prop} (h : resumes 0) :
    Program.preparedWrite.Course 0 resumes [⟨0, 0⟩, ⟨5, 5⟩, ⟨6, 6⟩, ⟨1, 3⟩] [4] := by
  have hfollows : ∀ o ∈ [0, 1, 2, 3, 5], Program.preparedWrite.Follows o (o + 1) := by
    unfold Program.Follows
    decide +kernel
  have hwrite : Program.preparedWrite.Closes Program.preparedWrite.Returnable 1 3 := by
    refine ⟨by decide +kernel, .next (.first (hfollows 1 (by decide))) ?_ ?_ rfl
      (hfollows 2 (by decide))⟩
    · decide +kernel
    · intro f hf
      have hnone : (Program.preparedWrite.kind 2).callee? = none := by decide +kernel
      rw [hnone] at hf
      cases hf
  have h₀ : Program.preparedWrite.Course 0 resumes [] [0] := .start (by decide +kernel)
  have h₁ : Program.preparedWrite.Course 0 resumes [⟨0, 0⟩] [5, 0] :=
    h₀.single (.call (f := 1) (by decide +kernel) (by decide +kernel)) (by decide +kernel)
  have h₂ : Program.preparedWrite.Course 0 resumes [⟨0, 0⟩, ⟨5, 5⟩] [6, 0] :=
    h₁.single (.pass (by decide +kernel) (by decide +kernel) (hfollows 5 (by decide)))
      (by decide +kernel)
  have h₃ : Program.preparedWrite.Course 0 resumes [⟨0, 0⟩, ⟨5, 5⟩, ⟨6, 6⟩] [1] :=
    .step h₂ (.single (.ret (by decide +kernel) (hfollows 0 (by decide))) (by decide +kernel)
      fun c rest _ hcalls => by cases hcalls; exact h)
  exact .step h₃ (.region (by decide +kernel) hwrite (hfollows 3 (by decide)))

def Reduction.preparedWrite : Reduction :=
  (Program.preparedWrite.reduce .static).result.toOption.getD default

theorem prepared_write_is_visited :
    (Program.preparedWrite.reduce .static).result = .ok .preparedWrite ∧
      (∃ a, Reduction.preparedWrite.tracker.area? 4 = some a) ∧
      ∀ v ∈ ([⟨0, 0⟩, ⟨5, 5⟩, ⟨6, 6⟩, ⟨1, 3⟩] : List Visit),
        ∃ a, Reduction.preparedWrite.tracker.area? v.op = some a := by
  have hok : (Program.preparedWrite.reduce .static).result = .ok .preparedWrite :=
    Checked.ok_of_toOption (by decide +kernel)
  have hproc : (Reduction.preparedWrite.analysis.threads.get 0).proc = 0 := by decide +kernel
  have hprog : Reduction.preparedWrite.analysis.prog = .preparedWrite := by decide +kernel
  have hcourse : Program.preparedWrite.Course (Reduction.preparedWrite.analysis.threads.get 0).proc
      Reduction.preparedWrite.analysis.OutsideRegions
      [⟨0, 0⟩, ⟨5, 5⟩, ⟨6, 6⟩, ⟨1, 3⟩] [4] := by
    rw [hproc]
    apply Program.preparedWrite_course
    intro b d _ _ hinside
    rw [hprog] at hinside
    have hafter := hinside.after Program.built_preparedWrite.coherent.1 (by decide +kernel)
    exact absurd hafter (Nat.not_lt_zero _)
  exact ⟨hok, executed_operations_have_areas Program.built_preparedWrite (by decide +kernel) hok
    (by decide +kernel) hcourse⟩

/-- A thread that comes to a block either inside a region or outside of it; the block calls a
procedure, writes and holds the end marker. -/
def BuildStep.sharedTailSteps : List BuildStep :=
  [.proc "main", .proc "helper", .block 0 "entry", .block 0 "outer", .block 0 "shared",
    .block 1 "entry", .branch 0 [1, 2], .op 1 (.library .atomicBegin), .branch 1 [2],
    .op 2 (.call 1), .op 2 (.memory .write (.named "x")), .op 2 (.library .atomicEnd),
    .op 2 (.terminator .ret), .op 3 (.terminator .ret)]

def Program.sharedTail : Program :=
  ((BuildStep.applyAll {} BuildStep.sharedTailSteps).toOption.getD default).1

theorem Program.built_sharedTail : Program.sharedTail.Built := by
  refine .inl ⟨BuildStep.sharedTailSteps, .sharedTail,
    [0, 1, 0, 1, 2, 3, 0, 1, 2, 3, 4, 5, 6, 7], ?_, ?_⟩
  · decide +kernel
  · decide +kernel

theorem Program.sharedTail_course :
    Program.sharedTail.Course 0 (fun _ => True) [⟨0, 0⟩, ⟨3, 3⟩, ⟨7, 7⟩, ⟨4, 4⟩] [5] := by
  have hback : Program.sharedTail.Follows 3 4 := by
    unfold Program.Follows
    decide +kernel
  have hnext : Program.sharedTail.Follows 4 5 := by
    unfold Program.Follows
    decide +kernel
  have hsucc : Program.sharedTail.Succ (Program.sharedTail.blockOf 0) 2 := by
    unfold Program.Succ
    decide +kernel
  have h₀ : Program.sharedTail.Course 0 (fun _ => True) [] [0] := .start (by decide +kernel)
  have h₁ : Program.sharedTail.Course 0 (fun _ => True) [⟨0, 0⟩] [3] :=
    h₀.single (.branch (by decide +kernel) hsucc (by decide +kernel)) (by decide +kernel)
  have h₂ : Program.sharedTail.Course 0 (fun _ => True) [⟨0, 0⟩, ⟨3, 3⟩] [7, 3] :=
    h₁.single (.call (f := 1) (by decide +kernel) (by decide +kernel)) (by decide +kernel)
  have h₃ : Program.sharedTail.Course 0 (fun _ => True) [⟨0, 0⟩, ⟨3, 3⟩, ⟨7, 7⟩] [4] :=
    .step h₂ (.single (.ret (by decide +kernel) hback) (by decide +kernel) fun _ _ _ _ => trivial)
  exact h₃.single (.pass (by decide +kernel) (by decide +kernel) hnext) (by decide +kernel)

/-- Without the condition the write is missed: the call before it is also written inside the region,
so the tracker never returns to it. -/
theorem code_shared_with_region_is_not_visited :
    Program.sharedTail.Built ∧ ∃ red, (Program.sharedTail.reduce .static).result = .ok red ∧
      0 ∈ red.analysis.threads.ids ∧ (red.analysis.threads.get 0).proc = 0 ∧
      Program.sharedTail.Course 0 (fun _ => True) [⟨0, 0⟩, ⟨3, 3⟩, ⟨7, 7⟩, ⟨4, 4⟩] [5] ∧
      red.tracker.area? 4 = none := by
  have hok := Checked.ok_of_toOption (x := (Program.sharedTail.reduce .static).result)
    (by decide +kernel)
  refine ⟨Program.built_sharedTail, _, hok, ?_, ?_, Program.sharedTail_course, ?_⟩
  · decide +kernel
  · decide +kernel
  · decide +kernel

end YieldPlan
