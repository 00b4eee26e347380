import YieldPlan.Proofs.FiledRequests
import YieldPlan.Proofs.PhaseStability
import YieldPlan.Proofs.ProcedureMovers

/-! Where nothing runs besides the entrypoint, everything moves both ways, and so do regions and
procedures. A walk that starts before the commit point then never gets past it: it meets every point
in the area in which it began, demands nothing, and leaves the one request that every thread begins
with. -/

namespace YieldPlan

structure Processor.Stays {σ : Type} (P : Processor σ) (a : Area) (S : σ → Prop) : Prop where
  visit : ∀ {o s st s'}, S s → P.visit o a s = .ok st s' → S s' ∧ st.area = a
  afterCall : ∀ {o f p s l s'}, S s → P.afterCall o f p s = .ok l s' → S s'
  afterReturn : ∀ {f s l s'}, S s → P.afterReturn f s = .ok l s' → S s'

namespace Walk

variable {σ : Type} {prog : Program} {P : Processor σ} {a : Area} {S : σ → Prop}

theorem runBlock_stays (h : P.Stays a S) {b : Block} {ops : List OpId} {succs : List Point}
    {s s' : σ} {x : Area × List Point} (hS : S s)
    (hrun : runBlock prog P b a succs ops s = .ok x s') : S s' ∧ x.1 = a := by
  induction ops generalizing succs s with
  | nil =>
    obtain ⟨rfl, rfl⟩ := Action.pure_ok.mp hrun
    exact ⟨hS, rfl⟩
  | cons o rest ih =>
    rcases runBlock_cons hrun with ⟨c, points, hv, rfl⟩ | ⟨c, u, f, l, hv, -, hl, rfl⟩ |
      ⟨c, u, l, v, hv, -, hl, hrest⟩
    · exact h.visit hS hv
    · obtain ⟨hu, harea⟩ := h.visit hS hv
      exact ⟨h.afterCall hu hl, harea⟩
    · obtain ⟨hu, rfl⟩ := h.visit hS hv
      have hv' : S v := by
        rcases follow_cases hl with ⟨-, -, rfl⟩ | ⟨-, hret⟩ | ⟨-, -, rfl⟩
        · exact hu
        · exact h.afterReturn hu hret
        · exact hu
      exact ih hv' hrest

/-- The walk has met all points in the area `a`, and is about to meet more in it. -/
structure Level (a : Area) (S : σ → Prop) (w : Walk σ) : Prop where
  state : S w.state
  areas : ∀ p b, w.areas.get? p = some b → b = a
  stack : ∀ f ∈ w.stack, f.out = a

theorem reach_level (h : P.Stays a S) {w w' : Walk σ} {p : Point} {b : Bool} (hw : Level a S w)
    (hr : reach prog P p a w = .ok b w') : Level a S w' := by
  rcases reach_cases hr with ⟨-, rfl, -⟩ | ⟨-, area, s, ops, out, pending, s', hadmits, -, hrun, rfl⟩
  · exact hw
  · have hsame : s = w.state ∧ area = a := by
      cases hadmits with
      | absent => exact ⟨rfl, rfl⟩
      | enlarged hget hne => exact absurd (by rw [hw.areas _ _ hget, Area.join_self]) hne
      | fresh hget => exact ⟨rfl, hw.areas _ _ hget⟩
    obtain ⟨rfl, rfl⟩ := hsame
    obtain ⟨hs', hout⟩ := runBlock_stays h hw.state hrun
    constructor
    · exact hs'
    · intro q c hq
      simp only [explored, Table.get?_put] at hq
      split at hq
      · exact (Option.some.inj hq).symm
      · exact hw.areas q c hq
    · intro f hf
      rcases List.mem_cons.mp hf with rfl | hf
      · exact hout
      · exact hw.stack f hf

theorem Moves.level (h : P.Stays a S) {w w' : Walk σ} (hw : Level a S w)
    (hm : Moves prog P w w') : Level a S w' := by
  obtain ⟨pr, hm⟩ := hm
  rcases step_cases hm with ⟨-, -, rfl⟩ | ⟨f, rest, hs, -, -, rfl⟩ |
    ⟨f, rest, p, pending, b, hs, -, hr, -⟩
  · exact hw
  · constructor
    · exact hw.state
    · exact hw.areas
    · intro g hg
      exact hw.stack g (hs ▸ List.mem_cons_of_mem _ hg)
  · obtain rfl : f.out = a := hw.stack f (hs ▸ List.mem_cons_self)
    apply reach_level h _ hr
    constructor
    · exact hw.state
    · exact hw.areas
    · intro g hg
      rcases List.mem_cons.mp hg with rfl | hg
      · rfl
      · exact hw.stack g (hs ▸ List.mem_cons_of_mem _ hg)

theorem walk_level (h : P.Stays a S) {first : Point} {w w' : Walk σ} (hw : Level a S w)
    (hwalk : prog.walk P first a w = .ok () w') : Level a S w' := by
  apply walk_induction hwalk
  · exact fun b v hr => reach_level h hw hr
  · exact fun v u hv hmove => hmove.level h hv

end Walk

theorem Mover.joinAll_both {ms : List Mover} (h : ∀ m ∈ ms, m = .both) : joinAll ms = .both := by
  have hle : (joinAll ms).join .both = .both := by
    apply joinAll_le_iff.mpr
    intro m hm
    rw [h m hm]
    exact both_le .both
  simpa using hle

structure Movability.Free (prog : Program) (m : Movability) : Prop where
  movable : ∀ o, m.movable prog o = .both
  summary : ∀ p, m.summary p = .both

namespace Movability.Free

variable {prog : Program} {m : Movability}

theorem effect (h : m.Free prog) (o : OpId) : m.effect prog o = .both := by
  unfold Movability.effect
  split
  · rw [h.movable, h.summary]
    rfl
  · exact h.movable o

theorem joinAll_effect (h : m.Free prog) (ops : List OpId) :
    Mover.joinAll (ops.map (m.effect prog)) = .both := by
  apply Mover.joinAll_both
  intro k hk
  obtain ⟨o, -, rfl⟩ := List.mem_map.mp hk
  exact h.effect o

theorem addProc (h : m.Free prog) (p : ProcId) : (m.addProc prog p).Free prog where
  movable := h.movable
  summary q := by
    rw [summary_addProc]
    split
    · exact h.joinAll_effect _
    · exact h.summary q

end Movability.Free

theorem Program.movability_free {prog : Program} {order : List ProcId} {ts : Threads}
    {c : Conflicts} {m : Movability} (hseq : ts.isSequential = true)
    (h : (prog.movability order ts c).result = .ok m) : m.Free prog := by
  rw [movability_ok h]
  apply List.foldlRecOn order (motive := fun m : Movability => m.Free prog)
  · constructor
    · intro o
      simp [Movability.movable, hseq]
    · intro p
      rfl
  · intro m hm p _
    exact hm.addProc p

/-- The requests of a thread that only begins, and of no other. -/
def BlockStarts.opening (t : ThreadId) (first : OpId) : BlockStarts :=
  ⟨Table.put {} t [⟨first, .loopBreak, 0, .before, []⟩]⟩

theorem BlockStarts.ofThread_opening (t : ThreadId) (first : OpId) :
    (opening t first).ofThread t = [⟨first, .loopBreak, 0, .before, []⟩] := by
  rw [opening, ofThread_put, if_pos rfl]

namespace PhaseTracker

open BlockStarts

variable {cx : Analysis} {pt pt' : PhaseTracker} {t : ThreadId} {n : Nat}

theorem moverAt_free (hfree : cx.movability.Free cx.prog) (hscanned : Scanned cx pt) (o : OpId) :
    moverAt cx pt o = .both := by
  unfold moverAt
  cases hopen : opens? cx pt o with
  | none => exact hfree.movable o
  | some region =>
    obtain ⟨-, hat⟩ := opens?_ok hopen
    rw [hscanned.regionAt] at hat
    show region.kind = .both
    rw [AtomicRegion.scan_kind hat]
    exact hfree.joinAll_effect _

def Idle (b : BlockStarts) (s : Tracking) : Prop :=
  (∀ o a, s.opAreas.get? o = some a → a = .pre) ∧ s.requests = b

theorem Idle.recordArea {b : BlockStarts} {s : Tracking} (h : Idle b s) (o x : OpId) {a : Area}
    (ha : (PhaseTracker.recordArea o .pre s).opAreas.get? x = some a) : a = .pre := by
  simp only [PhaseTracker.recordArea, Table.get?_put] at ha
  split at ha
  · cases hold : s.opAreas.get? o with
    | none => simpa [hold, eq_comm] using ha
    | some old => simpa [hold, h.1 o old hold, eq_comm] using ha
  · exact h.1 x a ha

theorem effects_visit_area (o : OpId) (a : Area) :
    ((effects cx pt t).visit o a).area = phaseAfter cx pt o a := by
  unfold effects
  dsimp only
  split <;> rfl

theorem processor_stays (hfree : cx.movability.Free cx.prog) (hscanned : Scanned cx pt)
    (b : BlockStarts) : (processor cx pt t).Stays .pre (Idle b) where
  visit := by
    intro o s st s' hs hv
    have hmover : moverAt cx pt o = .both := moverAt_free hfree hscanned o
    obtain ⟨hst, -, -⟩ := visit_ok hv
    refine ⟨⟨?_, ?_⟩, ?_⟩
    · intro x a ha
      rw [visit_opAreas hv] at ha
      exact hs.recordArea o x ha
    · rw [← hs.2]
      apply eq_of_files (visit_files hv)
      rintro x kind placement ⟨-, hdemand⟩
      simp [demandAt, hmover, transition] at hdemand
    · rw [hst, effects_visit_area]
      unfold phaseAfter
      rw [hmover]
      split <;> rfl
  afterCall hs h := (Action.pure_ok.mp h).2 ▸ hs
  afterReturn hs h := (Action.pure_ok.mp h).2 ▸ hs

theorem addThread_idle (hfree : cx.movability.Free cx.prog) (hscanned : Scanned cx pt)
    (hview : view pt = view { mode := pt.mode, conflictChecks := pt.conflictChecks })
    (hareas : pt.areas = {}) (h : (addThread cx pt t).result = .ok (pt', n)) :
    ∃ first, (cx.prog.firstPoint (cx.threads.get t).proc).op? cx.prog = some first ∧
      pt'.requests = opening t first ∧
      (∀ u p a, pt'.areaAt? u p = some a → a = .pre) ∧
      ∀ o a, pt'.area? o = some a → a = .pre := by
  obtain ⟨w, hw, rfl⟩ := addThread_cases h
  obtain ⟨first, s, hfirst, hfile, hwalk⟩ := walkThread_cases hw
  have hrequests : pt.requests = {} := congrArg Tracking.requests hview
  have hopAreas : pt.opAreas = {} := congrArg Tracking.opAreas hview
  have hs : Idle (opening t first) s := by
    cases hfile
    constructor
    · simp [start, hopAreas]
    · simp [start, hrequests, opening, get?, ofThread]
  have hlevel : Walk.Level .pre (Idle (opening t first)) w := by
    apply Walk.walk_level (processor_stays hfree hscanned _) _ hwalk
    constructor
    · exact hs
    · simp [start, hareas]
    · simp [start]
  refine ⟨first, hfirst, hlevel.state.2, ?_, hlevel.state.1⟩
  intro u p a ha
  rw [areaAt?_absorb] at ha
  split at ha
  · exact hlevel.areas p a ha
  · simp [areaAt?, hareas] at ha

theorem run_first {first : OpId} (h : (run cx pt).result = .ok (pt', n)) (ht : t ∈ cx.threads.ids)
    (hfirst : (cx.prog.firstPoint (cx.threads.get t).proc).op? cx.prog = some first) :
    ∃ a, pt'.area? first = some a := by
  obtain ⟨-, -, hall⟩ := run_finished h
  obtain ⟨points, areas, -, hfinished⟩ := hall t ht
  exact hfinished.area hfinished.first.1 hfirst

theorem run_idle (hfree : cx.movability.Free cx.prog) (hids : cx.threads.ids = [0]) {mode : Mode}
    {checks : Bool} (h : (run cx { mode, conflictChecks := checks }).result = .ok (pt', n)) :
    ∃ first, (cx.prog.firstPoint (cx.threads.get 0).proc).op? cx.prog = some first ∧
      pt'.requests = opening 0 first ∧
      (∀ u p a, pt'.areaAt? u p = some a → a = .pre) ∧
      ∀ o a, pt'.area? o = some a → a = .pre := by
  obtain ⟨pt₁, h₁, hall⟩ := run_cases h
  rw [hids] at hall
  obtain ⟨pt₂, n₁, n₂, h₂, hnone, -⟩ := addThreads_cons hall
  cases hnone
  obtain ⟨hview, hareas, -⟩ := addRegions_view h₁
  exact addThread_idle hfree (addRegions_scanned h₁ (scanned_fresh mode checks)) hview hareas h₂

end PhaseTracker

def Plan.opening (first : OpId) : Mode → List PlanStep
  | .static => []
  | .dynamic => [⟨first, .before, 0, .initPhase⟩]

theorem Plan.steps_of_opening {cx : Analysis} {pt : PhaseTracker} {t : ThreadId} {first : OpId}
    (h : pt.requests.ofThread t = [⟨first, .loopBreak, 0, .before, []⟩]) :
    (ofThread cx pt t).steps = opening first pt.mode := by
  unfold ofThread
  cases hmode : pt.mode <;> simp [h, initSteps, requestSteps, actions, hmode, opening]

/-- A reduction that found nothing to do: all areas are before the commit point, and the only request
is that of the first block, for which a plan at most sets the phase variable. -/
structure Reduction.LeavesAlone (red : Reduction) (mode : Mode) (first : OpId) : Prop where
  movers : ∀ o, red.analysis.movability.movable red.analysis.prog o = .both
  summaries : ∀ p, red.analysis.movability.summary p = .both
  regions : ∀ o region, red.tracker.regions.get? o = some region → region.kind = .both
  areas : ∀ t p a, red.tracker.areaAt? t p = some a → a = .pre
  opAreas : ∀ o a, red.tracker.area? o = some a → a = .pre
  entered : red.tracker.area? first = some .pre
  requests : red.tracker.requests.ofThread 0 = [⟨first, .loopBreak, 0, .before, []⟩]
  single : red.tracker.requests.size = 1
  plan : red.plan.threads.map (fun plan => (plan.thread, plan.steps)) = [(0, Plan.opening first mode)]

theorem Threads.ids_of_sequential {ts : Threads} (h : ts.isSequential = true) : ts.ids = [0] := by
  simp only [isSequential, Bool.and_eq_true, beq_iff_eq] at h
  rw [ids, size, h.1]
  rfl

/-- A program of one thread with one instance is left alone, whatever it locks, calls, loops over or
encloses in atomic regions. -/
theorem sequential_programs_are_left_alone {prog : Program} {mayAlias : AliasOracle} {mode : Mode}
    {red : Reduction} (h : (prog.reduceWith mayAlias mode).result = .ok red)
    (hseq : red.analysis.threads.isSequential = true) :
    ∃ first, (prog.firstPoint (red.analysis.threads.get 0).proc).op? prog = some first ∧
      red.LeavesAlone mode first := by
  obtain ⟨hcx, checks, n, hrun, hplan⟩ := Program.reduceWith_ok h
  have hanalyzed := Program.analyze_ok hcx
  obtain rfl : red.analysis.prog = prog := hanalyzed.prog_eq
  have hfree := Program.movability_free hseq hanalyzed.movability
  have hids := Threads.ids_of_sequential hseq
  obtain ⟨first, hfirst, hrequests, hareas, hopAreas⟩ := PhaseTracker.run_idle hfree hids hrun
  obtain ⟨a, ha⟩ := PhaseTracker.run_first hrun (t := 0) (by simp [hids]) hfirst
  obtain ⟨-, hmode, -⟩ := PhaseTracker.run_finished hrun
  have hopening : red.tracker.requests.ofThread 0 = [⟨first, .loopBreak, 0, .before, []⟩] := by
    rw [hrequests, BlockStarts.ofThread_opening]
  refine ⟨first, hfirst, ?_⟩
  constructor
  · exact hfree.movable
  · exact hfree.summary
  · intro o region hregion
    rw [AtomicRegion.scan_kind (PhaseTracker.scanned_of_run hrun o region hregion)]
    exact hfree.joinAll_effect _
  · exact hareas
  · exact hopAreas
  · rw [ha, hopAreas first a ha]
  · exact hopening
  · rw [hrequests]
    rfl
  · rw [hplan, Plan.build, hids]
    simp only [List.map_cons, List.map_nil, Plan.steps_of_opening hopening]
    rw [hmode]
    rfl

def Description.solitary : Description where
  procedures := [
    { name := "main"
      blocks := [
        { name := "entry"
          ops := [.call "pthread_mutex_lock" (some "m"), .call "step" none,
            .call "pthread_mutex_unlock" (some "m")]
          succs := ["head"] },
        { name := "head"
          ops := [.call "__VERIFIER_atomic_begin" none, .access .update (some "x"),
            .call "__VERIFIER_atomic_end" none, .call "sched_yield" none]
          succs := ["head", "done"] },
        { name := "done" }] },
    { name := "step", blocks := [{ name := "entry", ops := [.access .write (some "x")] }] }]

def Program.solitary : Program := Description.solitary.lower.toOption.getD default

def Reduction.solitary : Reduction :=
  (Program.solitary.reduce .dynamic).result.toOption.getD default

theorem solitary_thread_is_left_alone :
    Description.solitary.lower = .ok .solitary ∧
      (Program.solitary.reduceWith locationAliasing .dynamic).result = .ok .solitary ∧
      Reduction.solitary.analysis.threads.isSequential = true ∧
      Reduction.solitary.LeavesAlone .dynamic 0 := by
  have hlower : Description.solitary.lower = .ok .solitary :=
    Checked.ok_of_toOption (by decide +kernel)
  have hred : (Program.solitary.reduceWith locationAliasing .dynamic).result = .ok .solitary :=
    Checked.ok_of_toOption (by decide +kernel)
  have hseq : Reduction.solitary.analysis.threads.isSequential = true := by decide +kernel
  obtain ⟨first, hfirst, halone⟩ := sequential_programs_are_left_alone hred hseq
  obtain rfl : 0 = first := Option.some.inj ((by decide +kernel : _ = some 0).symm.trans hfirst)
  exact ⟨hlower, hred, hseq, halone⟩

end YieldPlan
