import YieldPlan.Plan.Printer
import YieldPlan.Proofs.FiledRequests
import YieldPlan.Proofs.OwnershipOutcome
import YieldPlan.Proofs.ProgramLayout
import YieldPlan.Proofs.ReductionOutcome
import YieldPlan.Proofs.ThreadRuns
import YieldPlan.Proofs.WalkInvariants

/-! The annotated program has a remark where the tracker has recorded an area, and the plan has
steps where it has filed requests. A request is filed at an operation that is visited, before the
first operation of a point that is then explored, or at the ends of a region. All of these have
areas in the end, but for the ends of regions: they are stepped over, and what is planned there is
not shown. -/

namespace YieldPlan

namespace PhaseTracker

open BlockStarts

variable {cx : Analysis} {pt pt' : PhaseTracker} {t : ThreadId} {o first : OpId}
  {due due' : OpId → Prop} {s s' : Tracking} {n : Nat}

/-- An operation of the program that ends a region, has an area, or is due to be visited. -/
def Foreseen (prog : Program) (due : OpId → Prop) (s : Tracking) (o : OpId) : Prop :=
  o < prog.ops.size ∧
    (prog.kind o = .library .atomicEnd ∨ (∃ a, s.opAreas.get? o = some a) ∨ due o)

def Placed (prog : Program) (due : OpId → Prop) (s : Tracking) : Prop :=
  ∀ t, ∀ r ∈ s.requests.ofThread t, Foreseen prog due s r.op

theorem Foreseen.grows {prog : Program} (h : Foreseen prog due s o) (hg : s.Grows s') :
    Foreseen prog due s' o := by
  refine ⟨h.1, h.2.imp_right fun hseen => hseen.imp_left ?_⟩
  rintro ⟨a, ha⟩
  obtain ⟨b, hb, -⟩ := hg.opAreas o a ha
  exact ⟨b, hb⟩

theorem Placed.settle {prog : Program} (h : Placed prog due s)
    (hdue : ∀ o, due o → (∃ a, s.opAreas.get? o = some a) ∨ due' o) : Placed prog due' s := by
  intro t r hr
  obtain ⟨hlt, hseen⟩ := h t r hr
  refine ⟨hlt, hseen.imp_right ?_⟩
  rintro (harea | hd)
  · exact .inl harea
  · exact hdue r.op hd

theorem Placed.files {prog : Program} {allowed : OpId → BlockKind → Placement → Prop}
    (h : Placed prog due s) (hg : s.Grows s')
    (hfiles : Relation.ReflTransGen (Files t allowed) s.requests s'.requests)
    (hallowed : ∀ o kind placement, allowed o kind placement → Foreseen prog due s' o) :
    Placed prog due s' := by
  apply files_keep (I := fun b => ∀ u, ∀ r ∈ b.ofThread u, Foreseen prog due s' r.op) _ hfiles
  · exact fun u r hr => (h u r hr).grows hg
  · intro b o kind placement sources hb ho u r hr
    rcases mem_ofThread_file hr with ⟨-, rfl⟩ | ⟨hr, -⟩
    · rw [op_after]
      exact hallowed o kind placement ho
    · exact hb u r hr

/-- No request of the tracker waits for a visit. -/
def Attended (cx : Analysis) (pt : PhaseTracker) : Prop :=
  Placed cx.prog (fun _ => False) (view pt)

theorem lt_of_demand {a : Area} {kind : BlockKind} {placement : Placement}
    (hopen : opens? cx pt o = none) (hd : demandAt cx pt o a = some (kind, placement)) :
    o < cx.prog.ops.size := by
  apply Program.lt_of_kind_ne
  intro hk
  have hmover : moverAt cx pt o = .both := by
    simp [moverAt, hopen, Movability.movable, Movability.classify, hk]
  simp [demandAt, hmover, transition] at hd

theorem visit_foreseen (hscanned : Scanned cx pt) {a : Area} {st : Step}
    (h : visit cx pt t o a s = .ok st s') {x : OpId} {kind : BlockKind} {placement : Placement}
    (hx : x ∈ requestOps cx pt o) (hd : demandAt cx pt o a = some (kind, placement)) :
    Foreseen cx.prog due s' x := by
  rcases hscanned.requestOps_cases hx with ⟨hopen, rfl⟩ | hend
  · obtain ⟨b, hb, -⟩ := (visit_ok h).2.2.area
    exact ⟨lt_of_demand hopen hd, .inr (.inl ⟨b, hb⟩)⟩
  · exact ⟨Program.lt_of_kind_ne (by simp [hend]), .inl hend⟩

theorem processor_places (hscanned : Scanned cx pt) : (processor cx pt t).Runs fun s s' =>
    ∀ due, Placed cx.prog due s → Placed cx.prog due s' where
  refl _ _ h := h
  trans h k due hs := k due (h due hs)
  visit := by
    intro o a s st s' hv due hs
    apply hs.files (visit_ok hv).2.1 (visit_files hv)
    rintro x kind placement ⟨hx, hd⟩
    exact visit_foreseen hscanned hv hx hd
  afterCall h := by
    obtain ⟨-, rfl⟩ := Action.pure_ok.mp h
    exact fun _ hs => hs
  afterReturn h := by
    obtain ⟨-, rfl⟩ := Action.pure_ok.mp h
    exact fun _ hs => hs

/-- The first operation of a thread and those of the points that are explored. -/
def Due (prog : Program) (first : OpId) (visited : List Point) (o : OpId) : Prop :=
  o = first ∨ ∃ p ∈ visited, p.op? prog = some o

theorem processor_explores_placed (hc : cx.prog.Coherent) (hscanned : Scanned cx pt)
    (first : OpId) : Walk.Explores cx.prog (processor cx pt t)
      (fun s _ visited => Placed cx.prog (Due cx.prog first visited) s) fun _ => True := by
  intro w p a area s ops x s' hw _ hadmits hops hrun
  refine ⟨Walk.runBlock_runs (processor_places hscanned) hrun _ ?_, fun _ _ => trivial⟩
  have hwider : Placed cx.prog (Due cx.prog first (p :: w.visited)) w.state := by
    apply hw.settle
    rintro o (rfl | ⟨q, hq, hop⟩)
    · exact .inr (.inl rfl)
    · exact .inr (.inr ⟨q, List.mem_cons_of_mem _ hq, hop⟩)
  cases hadmits with
  | absent => exact hwider
  | fresh => exact hwider
  | enlarged _ _ hrevisit =>
    apply hwider.files (revisit_grows hrevisit) (revisit_files hrevisit).1
    rintro o kind placement ⟨ho, -⟩
    exact ⟨(hc.opAt?_iff.mp ho).1, .inr (.inr (.inr ⟨p, List.mem_cons_self, ho⟩))⟩

theorem addThread_attended (hc : cx.prog.Coherent) (hscanned : Scanned cx pt)
    (h : (addThread cx pt t).result = .ok (pt', n)) (hpt : Attended cx pt) : Attended cx pt' := by
  obtain ⟨w, hw, rfl⟩ := addThread_cases h
  obtain ⟨first, s, hfirst, hfile, hwalk⟩ := walkThread_cases hw
  have hstart : Placed cx.prog (Due cx.prog first []) s := by
    have hbefore : Placed cx.prog (Due cx.prog first []) (start pt t).state :=
      Placed.settle hpt fun _ => False.elim
    apply hbefore.files (file_ok hfile (by simp)).2.1 (.single (file_files hfile))
    rintro o kind placement ⟨rfl, -⟩
    exact ⟨(hc.opAt?_iff.mp hfirst).1, .inr (.inr (.inl rfl))⟩
  have hend : Placed cx.prog (Due cx.prog first w.visited) w.state :=
    Walk.walk_keeps (w := { start pt t with state := s })
      (@processor_explores_placed cx pt t hc hscanned first) rfl hstart trivial hwalk
  have hfinished := (walkThread_ok rfl hw).1
  show Placed cx.prog (fun _ => False) w.state
  apply hend.settle
  rintro o (rfl | ⟨p, hp, ho⟩)
  · exact .inl (hfinished.area hfinished.first.1 hfirst)
  · exact .inl (hfinished.area hp ho)

theorem addThreads_attended (hc : cx.prog.Coherent) {ts : List ThreadId} (hscanned : Scanned cx pt)
    (h : (addThreads cx pt ts).result = .ok (pt', n)) (hpt : Attended cx pt) :
    Attended cx pt' := by
  induction ts generalizing pt n with
  | nil =>
    cases h
    exact hpt
  | cons t ts ih =>
    obtain ⟨pt₁, n₁, n₂, h₁, h₂, -⟩ := addThreads_cons h
    exact ih (hscanned.congr (addThread_ok h₁).1) h₂ (addThread_attended hc hscanned h₁ hpt)

/-- After a run from scratch, every request that is not at the end of a region has an area. -/
theorem run_attended (hc : cx.prog.Coherent) {mode : Mode} {checks : Bool}
    (h : (run cx { mode, conflictChecks := checks }).result = .ok (pt', n)) :
    Attended cx pt' := by
  obtain ⟨pt₁, h₁, h₂⟩ := run_cases h
  apply addThreads_attended hc (addRegions_scanned h₁ (scanned_fresh mode checks)) h₂
  rw [Attended, (addRegions_view h₁).1]
  intro t r hr
  cases hr

/-- The tracker steps over an end marker: it is of a region, and never visited for itself. -/
def Skips (prog : Program) (pt : PhaseTracker) (o : OpId) : Prop :=
  prog.kind o = .library .atomicEnd ∧ pt.area? o = none

end PhaseTracker

def PlanStep.note (s : PlanStep) : String := s!" | {s.placement.name} {s.action.text}"

namespace Plan

open PhaseTracker

variable {cx : Analysis} {pt : PhaseTracker} {plan : Plan} {steps : List PlanStep} {o : OpId}
  {text line : String}

/-- The line of an operation carries the steps: after its text the area, then placement and action of
each step in their order. Where there is no area the text stands alone, and there must be no steps. -/
def Carries (area : Option Area) (steps : List PlanStep) (text line : String) : Prop :=
  match area with
  | some a => line = s!"    {text}; // {a.name}" ++ String.join (steps.map PlanStep.note) ++ "\n"
  | none => steps = [] ∧ line = s!"    {text};\n"

theorem Carries.note {area : Option Area} (h : Carries area steps text line) {s : PlanStep}
    (hs : s ∈ steps) : ∃ before after, line = before ++ s.note ++ after := by
  obtain ⟨front, back, rfl⟩ := List.append_of_mem hs
  cases area with
  | none =>
    obtain ⟨hnone, -⟩ := h
    simp at hnone
  | some a =>
    obtain rfl := h
    refine ⟨s!"    {text}; // {a.name}" ++ String.join (front.map PlanStep.note),
      String.join (back.map PlanStep.note) ++ "\n", ?_⟩
    simp [String.append_assoc]

theorem remark_eq (plan : Plan) (pt : PhaseTracker) (o : OpId) :
    plan.remark pt o = (pt.area? o).map fun area =>
      area.name ++ String.join ((plan.stepsAt o).map PlanStep.note) := rfl

theorem exists_line (plan : Plan) (pt : PhaseTracker) {prog : Program}
    (htext : prog.opText o = .ok text) : ∃ line, prog.opLine (plan.remark pt) o = .ok line ∧
      ((pt.area? o = none → plan.stepsAt o = []) →
        Carries (pt.area? o) (plan.stepsAt o) text line) ∧
      (pt.area? o = none → line = s!"    {text};\n") := by
  rw [Program.opLine, htext, Checked.ok_bind, remark_eq]
  cases pt.area? o with
  | none => exact ⟨_, rfl, fun hsteps => ⟨hsteps rfl, rfl⟩, fun _ => rfl⟩
  | some area =>
    refine ⟨_, rfl, fun _ => ?_, by simp⟩
    simp [Carries, toString, String.append_assoc]

theorem mem_stepsAt {s : PlanStep} :
    s ∈ plan.stepsAt o ↔ s.op = o ∧ ∃ p ∈ plan.threads, s ∈ p.steps := by
  simp [stepsAt, and_comm]

theorem foreseen_of_step (h : Attended cx pt) {p : ThreadPlan}
    (hp : p ∈ (build cx pt).threads) {s : PlanStep} (hs : s ∈ p.steps) :
    Foreseen cx.prog (fun _ => False) (view pt) s.op := by
  obtain ⟨t, -, rfl⟩ := List.mem_map.mp hp
  obtain ⟨r, hr, hop⟩ := exists_request hs
  exact hop ▸ h t r hr

theorem stepsAt_eq_nil (h : Attended cx pt)
    (hskips : ¬ Skips cx.prog pt o) (harea : pt.area? o = none) :
    (build cx pt).stepsAt o = [] := by
  refine List.eq_nil_iff_forall_not_mem.mpr fun s hs => ?_
  obtain ⟨rfl, p, hp, hs⟩ := mem_stepsAt.mp hs
  obtain ⟨-, hend | ⟨a, ha⟩ | hdue⟩ := foreseen_of_step h hp hs
  · exact hskips ⟨hend, harea⟩
  · cases harea.symm.trans ha
  · exact hdue

end Plan

open PhaseTracker in
/-- The annotated program has one line for each operation. But for the end markers that the tracker
steps over, the line carries what the threads have planned there, in the order of the plan, so that no
step of the plan is missing; the line of such a marker shows nothing of the plan. -/
theorem annotated_lines_carry_planned_steps {base prog : Program} (hbuilt : base.Built)
    (hprog : prog = { base with extraOptions := prog.extraOptions }) {mayAlias : AliasOracle}
    {mode : Mode} {red : Reduction} (h : (prog.reduceWith mayAlias mode).result = .ok red) :
    ∃ line : OpId → String, red.plan.annotated prog red.tracker = .ok (prog.layout line) ∧
      prog.listing.Perm prog.opIds ∧
      (∀ o < prog.ops.size, ∃ text, prog.opText o = .ok text ∧
        (¬ Skips prog red.tracker o →
          Plan.Carries (red.tracker.area? o) (red.plan.stepsAt o) text (line o)) ∧
        (Skips prog red.tracker o → line o = s!"    {text};\n")) ∧
      ∀ plan ∈ red.plan.threads, ∀ s ∈ plan.steps, s.op < prog.ops.size ∧
        (¬ Skips prog red.tracker s.op →
          ∃ before after, line s.op = before ++ s.note ++ after) := by
  have hs : prog.Shaped := hprog ▸ hbuilt.shaped.withOptions prog.extraOptions
  obtain ⟨hcx, checks, n, hrun, hplan⟩ := Program.reduceWith_ok h
  have ha := Program.analyze_ok hcx
  obtain rfl := ha.prog_eq
  have hattended := run_attended hs.toCoherent hrun
  have hlines : ∀ o < red.analysis.prog.ops.size, ∃ line,
      red.analysis.prog.opLine (red.plan.remark red.tracker) o = .ok line ∧
      ∃ text, red.analysis.prog.opText o = .ok text ∧
        (¬ Skips red.analysis.prog red.tracker o →
          Plan.Carries (red.tracker.area? o) (red.plan.stepsAt o) text line) ∧
        (Skips red.analysis.prog red.tracker o → line = s!"    {text};\n") := by
    intro o ho
    obtain ⟨text, htext⟩ := Program.opText_ok hs ha.targets ho
    obtain ⟨line, hline, hcarries, hbare⟩ := Plan.exists_line red.plan red.tracker htext
    refine ⟨line, hline, text, htext, fun hskips => hcarries ?_, fun hskips => hbare hskips.2⟩
    rw [hplan]
    exact Plan.stepsAt_eq_nil hattended hskips
  choose! line hline using hlines
  refine ⟨line, Program.renderWith_ok hs fun o ho => (hline o ho).1, hs.listing_perm,
    fun o ho => (hline o ho).2, ?_⟩
  intro plan hmem s hstep
  have hlt : s.op < red.analysis.prog.ops.size :=
    (Plan.foreseen_of_step hattended (hplan ▸ hmem) hstep).1
  refine ⟨hlt, fun hskips => ?_⟩
  obtain ⟨-, text, -, hcarries, -⟩ := hline s.op hlt
  exact (hcarries hskips).note (Plan.mem_stepsAt.mpr ⟨rfl, plan, hmem, hstep⟩)

/-- A thread that writes a shared location in an atomic region and once more behind it. -/
def Description.enclosedWrite : Description where
  procedures := [
    { name := "main"
      blocks := [{
        name := "entry"
        ops := [.call "pthread_create" (some "worker"), .call "__VERIFIER_atomic_begin" none,
          .access .write (some "x"), .call "__VERIFIER_atomic_end" none,
          .access .write (some "x")] }] },
    { name := "worker", blocks := [{ name := "entry", ops := [.access .write (some "x")] }] }]

def Program.enclosedWrite : Program := Description.enclosedWrite.lower.toOption.getD default

theorem Program.built_enclosedWrite : Program.enclosedWrite.Built :=
  .inr ⟨.enclosedWrite, Checked.ok_of_toOption (by decide +kernel)⟩

def Reduction.enclosedWrite : Reduction :=
  (Program.enclosedWrite.reduce .static).result.toOption.getD default

theorem Program.reduce_enclosedWrite : (Program.enclosedWrite.reduce .static).result =
    .ok .enclosedWrite := Checked.ok_of_toOption (by decide +kernel)

open PhaseTracker in
/-- The yield after the write behind the region is in the line of that write. -/
theorem write_behind_region_shows_its_yield : Program.enclosedWrite.Built ∧
    (Program.enclosedWrite.reduceWith locationAliasing .static).result = .ok .enclosedWrite ∧
    ∃ line, Reduction.enclosedWrite.plan.annotated .enclosedWrite Reduction.enclosedWrite.tracker =
        .ok (Program.enclosedWrite.layout line) ∧
      line 4 = "    write x; // post | after yield\n" := by
  refine ⟨Program.built_enclosedWrite, Program.reduce_enclosedWrite, ?_⟩
  obtain ⟨line, hprinted, -, hlines, -⟩ := annotated_lines_carry_planned_steps
    Program.built_enclosedWrite rfl Program.reduce_enclosedWrite
  refine ⟨line, hprinted, ?_⟩
  obtain ⟨text, htext, hcarries, -⟩ := hlines 4 (by decide +kernel)
  obtain rfl : "write x" = text := Except.ok.inj ((by decide +kernel : _ = _).symm.trans htext)
  have harea : Reduction.enclosedWrite.tracker.area? 4 = some .post := by decide +kernel
  have hskips : ¬ Skips .enclosedWrite Reduction.enclosedWrite.tracker 4 := by
    rintro ⟨-, hnone⟩
    cases harea.symm.trans hnone
  have hsteps : Reduction.enclosedWrite.plan.stepsAt 4 = [⟨4, .after, 2, .yield⟩] := by
    decide +kernel
  have hcarried := hcarries hskips
  rw [harea, hsteps] at hcarried
  exact hcarried.trans (by decide +kernel)

/-- The yield after the region is in the plan, at its end marker, and not in the annotated
program. -/
theorem yield_after_region_is_not_shown : Program.enclosedWrite.Built ∧
    ∃ red, (Program.enclosedWrite.reduceWith locationAliasing .static).result = .ok red ∧
      red.plan.stepsAt 3 = [⟨3, .after, 1, .yield⟩] ∧
      red.plan.text .enclosedWrite = "mode: static\nthread 0 main\n" ++
        "  after main.entry[3] #1: yield\n  after main.entry[4] #2: yield\nthread 1 worker\n" ∧
      red.plan.annotated .enclosedWrite red.tracker = .ok ("@main proc main \x7b\n  entry:\n" ++
        "    call pthread_create(worker); // pre\n    call __VERIFIER_atomic_begin(); // post\n" ++
        "    write x;\n    call __VERIFIER_atomic_end();\n    write x; // post | after yield\n" ++
        "    return; // post\n\x7d\n\nproc worker \x7b\n  entry:\n    write x; // pre\n" ++
        "    return; // post\n\x7d\n") := by
  refine ⟨Program.built_enclosedWrite, _, Program.reduce_enclosedWrite, ?_, ?_, ?_⟩
  · decide +kernel
  · decide +kernel
  · decide +kernel

end YieldPlan
