import YieldPlan.Proofs.PhaseSteps
import YieldPlan.Plan

/-! A `Trail` is a finite path of a thread through the graph that the tracker walks. The recorded
areas of points and operations are above the phase that any one trail has there, and every request
that the trail asks for has been filed. -/

namespace YieldPlan

/-- What a thread executes at once: an operation, or a region from its begin marker to an end. -/
structure Visit where
  op : OpId
  /-- The operation itself, or the end marker at which the region is left. -/
  last : OpId
  deriving DecidableEq, Repr

namespace PhaseTracker

variable (cx : Analysis) (pt : PhaseTracker) (t : ThreadId)

def Passes (prog : Program) (o : OpId) : Prop :=
  ¬ (prog.kind o).isTerminator ∧ (prog.kind o).callee? = none ∧
    prog.kind o ≠ .library .atomicBegin

/-- Where control goes from an operation of the block of `p` that it does not pass, with `rest` still
ahead of it: from the end of the block to the successors of a branch, or after a return to the recorded
sites of calls outside of regions, into a called procedure, and behind the ends of a region. -/
inductive Leads (p : Point) : List OpId → Visit → Point → Prop where
  | branch {o s} : cx.prog.kind o = .terminator .branch → s ∈ (cx.prog.block p.block).succs →
      Leads p [] ⟨o, o⟩ (.entry s)
  | call {rest o callee} : cx.prog.kind o = .call callee →
      Leads p rest ⟨o, o⟩ (.entry (cx.prog.entryBlock callee))
  | ret {o site} : cx.prog.kind o = .terminator .ret →
      (cx.prog.block p.block).proc ≠ (cx.threads.get t).proc →
      site ∈ cx.ownership.sites (cx.prog.block p.block).proc →
      (∀ c, cx.prog.opAt? site.block (site.start - 1) = some c → c ∉ pt.inRegion) →
      Leads p [] ⟨o, o⟩ site
  | region {rest o e region exit} : cx.prog.kind o = .library .atomicBegin →
      regionAt cx pt o = .ok region → (e, exit) ∈ region.ends.zip region.exits →
      Leads p rest ⟨o, e⟩ exit

/-- A path of the thread: what it has executed, the point that it entered last and the operations of
the block that are still ahead. -/
inductive Trail : List Visit → Point → List OpId → Prop where
  | start {ops} : (cx.prog.firstPoint (cx.threads.get t).proc).ops? cx.prog = some ops →
      Trail [] (cx.prog.firstPoint (cx.threads.get t).proc) ops
  | pass {vs p o rest} : Trail vs p (o :: rest) → Passes cx.prog o → Trail (vs ++ [⟨o, o⟩]) p rest
  | jump {vs p v rest q ops} : Trail vs p (v.op :: rest) → Leads cx pt t p rest v q →
      q.ops? cx.prog = some ops → Trail (vs ++ [v]) q ops

/-- The phase after a path. -/
def phase (vs : List Visit) : Area := vs.foldl (fun c v => phaseAfter cx pt v.op c) .pre

variable {cx pt t}

theorem phase_append (vs : List Visit) (v : Visit) :
    phase cx pt (vs ++ [v]) = phaseAfter cx pt v.op (phase cx pt vs) := by
  simp [phase]

/-- The walk of a thread is finished: its points with their recorded areas, each of them run in its
area with its effects kept. -/
structure Finished (cx : Analysis) (pt : PhaseTracker) (t : ThreadId) (points : List Point)
    (areas : Table Point Area) (s : Tracking) : Prop where
  first : cx.prog.firstPoint (cx.threads.get t).proc ∈ points ∧
    ∃ b, areas.get? (cx.prog.firstPoint (cx.threads.get t).proc) = some b ∧ Area.pre ≤ b
  ran : ∀ p ∈ points, ∃ a ops out next u u', areas.get? p = some a ∧
    p.ops? cx.prog = some ops ∧
    Walk.runBlock cx.prog (processor cx pt t) (cx.prog.block p.block) a [] ops u =
      .ok (out, next) u' ∧ u'.Grows s ∧
    ∀ q ∈ next, q ∈ points ∧ ∃ b, areas.get? q = some b ∧ out ≤ b

/-- The operations ahead were run in an area above `c`, and all that follows them is recorded. -/
def Ahead (cx : Analysis) (pt : PhaseTracker) (t : ThreadId) (points : List Point)
    (areas : Table Point Area) (s : Tracking) (p : Point) (rest : List OpId) (c : Area) : Prop :=
  ∃ a succs out next u u', c ≤ a ∧
    Walk.runBlock cx.prog (processor cx pt t) (cx.prog.block p.block) a succs rest u =
      .ok (out, next) u' ∧ u'.Grows s ∧
    ∀ q ∈ next, q ∈ points ∧ ∃ b, areas.get? q = some b ∧ out ≤ b

variable {points : List Point} {areas : Table Point Area} {s : Tracking}

theorem Finished.ahead (h : Finished cx pt t points areas s) {p : Point} {ops : List OpId}
    {c b : Area} (hp : p ∈ points) (ho : p.ops? cx.prog = some ops) (hb : areas.get? p = some b)
    (hc : c ≤ b) : Ahead cx pt t points areas s p ops c := by
  obtain ⟨a, ops', out, next, u, u', ha, ho', hrun, hg, hn⟩ := h.ran p hp
  obtain rfl : ops = ops' := Option.some.inj (ho.symm.trans ho')
  obtain rfl : b = a := Option.some.inj (hb.symm.trans ha)
  exact ⟨b, [], out, next, u, u', hc, hrun, hg, hn⟩

theorem Ahead.visit {p : Point} {o : OpId} {rest : List OpId} {c : Area}
    (h : Ahead cx pt t points areas s p (o :: rest) c) : Noted cx pt t o c s := by
  obtain ⟨a, succs, out, next, u, u', hc, hrun, hg, -⟩ := h
  obtain ⟨st, v, hv, hlater⟩ := Walk.runBlock_visits processor_respects hrun
  obtain ⟨-, -, hnoted⟩ := visit_ok hv
  exact (hnoted.mono hc).grows (hlater.trans hg)

theorem effects_visit_of_ne {o : OpId} (h : cx.prog.kind o ≠ .library .atomicBegin) (a : Area) :
    (effects cx pt t).visit o a = .continue (phaseAfter cx pt o a) := by
  simp [effects, opens?_of_ne h]

theorem runBlock_pass {b : Block} {o : OpId} {rest : List OpId} {a : Area} {succs : List Point}
    {x : Area × List Point} {u u' : Tracking} (ho : Passes cx.prog o)
    (h : Walk.runBlock cx.prog (processor cx pt t) b a succs (o :: rest) u = .ok x u') :
    ∃ l v, Walk.runBlock cx.prog (processor cx pt t) b (phaseAfter cx pt o a) l rest v =
      .ok x u' := by
  obtain ⟨-, hcall, hbegin⟩ := ho
  have hstep : (effects cx pt t).visit o a = .continue (phaseAfter cx pt o a) :=
    effects_visit_of_ne hbegin a
  rcases Walk.runBlock_cons h with ⟨c, points, hv, -⟩ | ⟨c, w, callee, l, -, hk, -⟩ |
    ⟨c, w, l, v, hv, -, -, hrest⟩
  · rw [← processor_follows.visit hv] at hstep
    cases hstep
  · rw [hk] at hcall
    cases hcall
  · rw [← processor_follows.visit hv] at hstep
    obtain rfl := Step.continue.inj hstep
    exact ⟨l, v, hrest⟩

theorem Ahead.pass {p : Point} {o : OpId} {rest : List OpId} {c : Area}
    (h : Ahead cx pt t points areas s p (o :: rest) c) (ho : Passes cx.prog o) :
    Ahead cx pt t points areas s p rest (phaseAfter cx pt o c) := by
  obtain ⟨a, succs, out, next, u, u', hc, hrun, hg, hn⟩ := h
  obtain ⟨l, v, hrest⟩ := runBlock_pass ho hrun
  exact ⟨_, l, out, next, v, u', phaseAfter_mono cx pt o hc, hrest, hg, hn⟩

theorem mem_afterReturn {f : ProcId} {site : Point} (hroot : f ≠ (cx.threads.get t).proc)
    (hs : site ∈ cx.ownership.sites f)
    (hr : ∀ c, cx.prog.opAt? site.block (site.start - 1) = some c → c ∉ pt.inRegion) :
    site ∈ afterReturn cx pt t f := by
  rw [afterReturn, if_neg hroot]
  refine List.mem_filter.mpr ⟨hs, ?_⟩
  split
  · next c hc => simpa using hr c hc
  · rfl

theorem Ahead.jump {p q : Point} {v : Visit} {rest : List OpId} {c : Area}
    (h : Ahead cx pt t points areas s p (v.op :: rest) c) (hl : Leads cx pt t p rest v q) :
    q ∈ points ∧ ∃ b, areas.get? q = some b ∧ phaseAfter cx pt v.op c ≤ b := by
  obtain ⟨a, succs, out, next, u, u', hc, hrun, -, hn⟩ := h
  have hx := Walk.runBlock_follows processor_follows hrun
  suffices hq : out = phaseAfter cx pt v.op a ∧ q ∈ next by
    obtain ⟨hmem, b, hb, hle⟩ := hn q hq.2
    exact ⟨hmem, b, hb, Area.le_trans (phaseAfter_mono cx pt v.op hc) (hq.1 ▸ hle)⟩
  cases hl with
  | branch hk hs =>
    rw [Effects.run_continue (effects_visit_of_ne (by simp [hk]) a) (by rw [hk]; rfl), hk] at hx
    obtain ⟨rfl, rfl⟩ := Prod.mk.inj hx
    exact ⟨rfl, List.mem_map_of_mem hs⟩
  | call hk =>
    rw [Effects.run_call (effects_visit_of_ne (by simp [hk]) a) hk] at hx
    obtain ⟨rfl, rfl⟩ := Prod.mk.inj hx
    exact ⟨rfl, List.mem_singleton.mpr rfl⟩
  | ret hk hroot hs hr =>
    rw [Effects.run_continue (effects_visit_of_ne (by simp [hk]) a) (by rw [hk]; rfl), hk] at hx
    obtain ⟨rfl, rfl⟩ := Prod.mk.inj hx
    exact ⟨rfl, mem_afterReturn hroot hs hr⟩
  | @region _ o _ region _ hk hat hexit =>
    have hstep : (effects cx pt t).visit o a = .jump (phaseAfter cx pt o a) region.exits := by
      simp only [effects, opens?_of_region hk hat]
    rw [Effects.run_jump hstep] at hx
    obtain ⟨rfl, rfl⟩ := Prod.mk.inj hx
    exact ⟨rfl, (List.of_mem_zip hexit).2⟩

theorem Trail.suffix {vs : List Visit} {p : Point} {rest : List OpId}
    (h : Trail cx pt t vs p rest) : ∃ ops, p.ops? cx.prog = some ops ∧ rest <:+ ops := by
  induction h with
  | start ho => exact ⟨_, ho, List.suffix_rfl⟩
  | pass _ _ ih =>
    obtain ⟨ops, ho, hs⟩ := ih
    exact ⟨ops, ho, (List.suffix_cons _ _).trans hs⟩
  | jump _ _ ho => exact ⟨_, ho, List.suffix_rfl⟩

/-- Along every trail the tracker has run what is ahead, in an area above the phase of the trail. -/
theorem Trail.ahead (hf : Finished cx pt t points areas s) {vs : List Visit} {p : Point}
    {rest : List OpId} (h : Trail cx pt t vs p rest) :
    Ahead cx pt t points areas s p rest (phase cx pt vs) ∧
      (p.ops? cx.prog = some rest → ∃ b, areas.get? p = some b ∧ phase cx pt vs ≤ b) := by
  induction h with
  | start ho =>
    obtain ⟨hmem, b, hb, hle⟩ := hf.first
    exact ⟨hf.ahead hmem ho hb hle, fun _ => ⟨b, hb, hle⟩⟩
  | @pass vs p o rest htrail ho ih =>
    rw [phase_append]
    refine ⟨ih.1.pass ho, fun hops => ?_⟩
    obtain ⟨ops, hops', hs⟩ := htrail.suffix
    obtain rfl : rest = ops := Option.some.inj (hops.symm.trans hops')
    have := hs.length_le
    simp at this
  | jump _ hl ho ih =>
    rw [phase_append]
    obtain ⟨hmem, b, hb, hle⟩ := ih.1.jump hl
    exact ⟨hf.ahead hmem ho hb hle, fun _ => ⟨b, hb, hle⟩⟩

def view (pt : PhaseTracker) : Tracking where
  requests := pt.requests
  opAreas := pt.opAreas
  strayEnds := pt.strayEnds

structure SameSetup (pt pt' : PhaseTracker) : Prop where
  mode : pt'.mode = pt.mode
  conflictChecks : pt'.conflictChecks = pt.conflictChecks
  regions : pt'.regions = pt.regions
  inRegion : pt'.inRegion = pt.inRegion

theorem SameSetup.trans {a b c : PhaseTracker} (h : SameSetup a b) (k : SameSetup b c) :
    SameSetup a c :=
  ⟨k.mode.trans h.mode, k.conflictChecks.trans h.conflictChecks, k.regions.trans h.regions,
    k.inRegion.trans h.inRegion⟩

theorem processor_congr {pt pt' : PhaseTracker} (h : SameSetup pt pt') (t : ThreadId) :
    processor cx pt' t = processor cx pt t := by
  obtain ⟨hm, hc, hr, hi⟩ := h
  cases pt
  cases pt'
  subst hm hc hr hi
  rfl

theorem Finished.congr {pt pt' : PhaseTracker} (h : Finished cx pt t points areas s)
    (hs : SameSetup pt pt') {s' : Tracking} (hg : s.Grows s') :
    Finished cx pt' t points areas s' where
  first := h.first
  ran p hp := by
    obtain ⟨a, ops, out, next, u, u', ha, ho, hrun, hu, hn⟩ := h.ran p hp
    exact ⟨a, ops, out, next, u, u', ha, ho, by rw [processor_congr hs]; exact hrun,
      hu.trans hg, hn⟩

theorem walkThread_cases {w₀ w : Walk Tracking} (h : walkThread cx pt t w₀ = .ok () w) :
    ∃ o s, (cx.prog.firstPoint (cx.threads.get t).proc).op? cx.prog = some o ∧
      file cx t o .loopBreak .before [] w₀.state = .ok () s ∧
      cx.prog.walk (processor cx pt t) (cx.prog.firstPoint (cx.threads.get t).proc) .pre
        { w₀ with state := s } = .ok () w := by
  obtain ⟨o, v, hcheck, h₁⟩ := Action.bind_ok.mp h
  obtain ⟨ho, rfl⟩ := Action.check_ok.mp hcheck
  obtain ⟨_, v, hlift, h₂⟩ := Action.bind_ok.mp h₁
  obtain ⟨s, hfile, rfl⟩ := Walk.lift_ok.mp hlift
  exact ⟨o, s, Checked.index_ok.mp ho, hfile, h₂⟩

theorem walkThread_ok {w₀ w : Walk Tracking} (hv : w₀.visited = [])
    (h : walkThread cx pt t w₀ = .ok () w) :
    Finished cx pt t w.visited w.areas w.state ∧ w₀.state.Grows w.state := by
  obtain ⟨o, s, -, hfile, hwalk⟩ := walkThread_cases h
  obtain ⟨-, hg, -⟩ := file_ok hfile (by simp)
  obtain ⟨-, hgrow, hfirst, hran⟩ :=
    Walk.walk_covers (w := { w₀ with state := s }) processor_respects hv hwalk
  exact ⟨⟨hfirst, hran⟩, hg.trans hgrow⟩

theorem absorb_setup (t : ThreadId) (w : Walk Tracking) : SameSetup pt (pt.absorb t w) :=
  ⟨rfl, rfl, rfl, rfl⟩

theorem areas_absorb (w : Walk Tracking) (u : ThreadId) :
    (pt.absorb t w).areas.get? u = if u = t then some w.areas else pt.areas.get? u :=
  Table.get?_put _ _ _ _

variable {pt' : PhaseTracker} {n : Nat}

theorem addThread_cases (h : (addThread cx pt t).result = .ok (pt', n)) :
    ∃ w, walkThread cx pt t (start pt t) = .ok () w ∧ pt' = pt.absorb t w := by
  unfold addThread at h
  cases hw : walkThread cx pt t (start pt t) with
  | error e w => simp [hw] at h
  | ok _ w =>
    simp only [hw, Except.ok.injEq, Prod.mk.injEq] at h
    exact ⟨w, rfl, h.1.symm⟩

theorem addThreads_cons {ts : List ThreadId}
    (h : (addThreads cx pt (t :: ts)).result = .ok (pt', n)) :
    ∃ pt₁ n₁ n₂, (addThread cx pt t).result = .ok (pt₁, n₁) ∧
      (addThreads cx pt₁ ts).result = .ok (pt', n₂) ∧ n = n₁ + n₂ := by
  simp only [addThreads, Traced.result_bind] at h
  obtain ⟨⟨pt₁, n₁⟩, h₁, h⟩ := Checked.bind_ok.mp h
  obtain ⟨⟨pt₂, n₂⟩, h₂, h⟩ := Checked.bind_ok.mp h
  cases h
  exact ⟨pt₁, n₁, n₂, h₁, h₂, rfl⟩

theorem run_cases (h : (run cx pt).result = .ok (pt', n)) :
    ∃ pt₁, (addRegions cx pt (beginMarkers cx)).result = .ok pt₁ ∧
      (addThreads cx pt₁ cx.threads.ids).result = .ok (pt', n) := by
  simp only [run, rerun, Traced.result_bind, Traced.result_log] at h
  obtain ⟨pt₁, h₁, h⟩ := Checked.bind_ok.mp h
  obtain ⟨⟨pt₂, n₂⟩, h₂, h⟩ := Checked.bind_ok.mp h
  cases h
  exact ⟨pt₁, h₁, h₂⟩

theorem addThread_ok (h : (addThread cx pt t).result = .ok (pt', n)) :
    SameSetup pt pt' ∧ (view pt).Grows (view pt') ∧
      (∀ u, u ≠ t → pt'.areas.get? u = pt.areas.get? u) ∧
      ∃ points areas, pt'.areas.get? t = some areas ∧
        Finished cx pt' t points areas (view pt') := by
  obtain ⟨w, hw, rfl⟩ := addThread_cases h
  obtain ⟨hf, hg⟩ := walkThread_ok rfl hw
  have hsetup : SameSetup pt (pt.absorb t w) := absorb_setup t w
  have hview : w.state.Grows (view (pt.absorb t w)) := Tracking.grows_of_eq rfl rfl
  refine ⟨hsetup, hg.trans hview, ?_, w.visited, w.areas, ?_, hf.congr hsetup hview⟩
  · intro u hu
    simp [areas_absorb, hu]
  · simp [areas_absorb]

theorem addThreads_ok {ts : List ThreadId} {pt pt' : PhaseTracker} {n : Nat}
    (h : (addThreads cx pt ts).result = .ok (pt', n)) :
    SameSetup pt pt' ∧ (view pt).Grows (view pt') ∧
      (∀ u, u ∉ ts → pt'.areas.get? u = pt.areas.get? u) ∧
      (ts.Nodup → ∀ t ∈ ts, ∃ points areas, pt'.areas.get? t = some areas ∧
        Finished cx pt' t points areas (view pt')) := by
  induction ts generalizing pt n with
  | nil =>
    cases h
    exact ⟨⟨rfl, rfl, rfl, rfl⟩, .refl _, fun _ _ => rfl, by simp⟩
  | cons t ts ih =>
    obtain ⟨pt₁, n₁, n₂, h₁, h₂, -⟩ := addThreads_cons h
    obtain ⟨hsame₁, hgrow₁, hother₁, points, areas, hareas, hfin⟩ := addThread_ok h₁
    obtain ⟨hsame₂, hgrow₂, hother₂, hall⟩ := ih h₂
    refine ⟨hsame₁.trans hsame₂, hgrow₁.trans hgrow₂, ?_, ?_⟩
    · intro u hu
      obtain ⟨hne, hmem⟩ := not_or.mp (fun hc => hu (List.mem_cons.mpr hc))
      exact (hother₂ u hmem).trans (hother₁ u hne)
    · intro hnd u hu
      obtain ⟨hnot, hnd⟩ := List.nodup_cons.mp hnd
      rcases List.mem_cons.mp hu with rfl | hu
      · exact ⟨points, areas, (hother₂ u hnot).trans hareas, hfin.congr hsame₂ hgrow₂⟩
      · exact hall hnd u hu

theorem create_ok {mode : Mode} (h : (create cx mode).result = .ok pt) :
    ∃ checks, pt = { mode, conflictChecks := checks } := by
  simp only [create, Traced.result_bind] at h
  obtain ⟨options, -, h⟩ := Checked.bind_ok.mp h
  obtain ⟨value, -, h⟩ := Checked.bind_ok.mp h
  obtain ⟨off, -, h⟩ := Checked.bind_ok.mp h
  cases h
  exact ⟨_, rfl⟩

theorem addRegions_view {os : List OpId} {pt pt' : PhaseTracker}
    (h : (addRegions cx pt os).result = .ok pt') :
    view pt' = view pt ∧ pt'.areas = pt.areas ∧ pt'.mode = pt.mode := by
  induction os generalizing pt with
  | nil =>
    cases h
    exact ⟨rfl, rfl, rfl⟩
  | cons o os ih =>
    unfold addRegions at h
    split at h
    · exact ih h
    · rw [Traced.result_bind] at h
      obtain ⟨region, -, h⟩ := Checked.bind_ok.mp h
      obtain ⟨hview, hareas, hmode⟩ := ih h
      exact ⟨hview, hareas, hmode⟩

theorem run_finished {pt' : PhaseTracker} {n : Nat} (h : (run cx pt).result = .ok (pt', n)) :
    (pt.requests.StaticAfter → pt'.requests.StaticAfter) ∧ pt'.mode = pt.mode ∧
      ∀ t ∈ cx.threads.ids, ∃ points areas, pt'.areas.get? t = some areas ∧
        Finished cx pt' t points areas (view pt') := by
  obtain ⟨pt₁, h₁, h₂⟩ := run_cases h
  obtain ⟨hview, -, hmode⟩ := addRegions_view h₁
  obtain ⟨hsame, hgrow, -, hall⟩ := addThreads_ok h₂
  refine ⟨fun hst => hgrow.static (s := view pt₁) ?_, hsame.mode.trans hmode, hall List.nodup_range⟩
  rwa [hview]

end PhaseTracker

open PhaseTracker in
/-- After a run of the tracker, every path of every thread is covered: the area of each point that it
enters and of each operation that it visits is above its phase there, and each request that its phase
asks for, at the operation or at every end of its region, has been filed at least as strong. -/
theorem phase_tracking_covers_paths {cx : Analysis} {pt pt' : PhaseTracker} {n : Nat}
    (h : (run cx pt).result = .ok (pt', n)) {t : ThreadId} (ht : t ∈ cx.threads.ids)
    {vs : List Visit} {p : Point} {rest : List OpId} (hp : Trail cx pt' t vs p rest) :
    (p.ops? cx.prog = some rest → ∃ areas a, pt'.areas.get? t = some areas ∧
      areas.get? p = some a ∧ a.join (phase cx pt' vs) = a) ∧
    ∀ o ops, rest = o :: ops →
      (∃ a, pt'.opAreas.get? o = some a ∧ a.join (phase cx pt' vs) = a) ∧
      ∀ kind placement, demandAt cx pt' o (phase cx pt' vs) = some (kind, placement) →
        ∀ x ∈ requestOps cx pt' o, ∃ r, pt'.requests.get? t x = some r ∧
          kind.strength ≤ r.kind.strength := by
  obtain ⟨-, -, hall⟩ := run_finished h
  obtain ⟨points, areas, hareas, hfin⟩ := hall t ht
  obtain ⟨hahead, hentry⟩ := hp.ahead hfin
  constructor
  · intro hops
    obtain ⟨a, ha, hle⟩ := hentry hops
    exact ⟨areas, a, hareas, ha, (Area.join_comm _ _).trans hle⟩
  · rintro o ops rfl
    have hnoted := hahead.visit
    obtain ⟨a, ha, hle⟩ := hnoted.area
    exact ⟨⟨a, ha, (Area.join_comm _ _).trans hle⟩, hnoted.requests⟩

theorem Program.reduceWith_ok {prog : Program} {mayAlias : AliasOracle} {mode : Mode}
    {red : Reduction} (h : (prog.reduceWith mayAlias mode).result = .ok red) :
    (prog.analyze mayAlias).result = .ok red.analysis ∧ ∃ checks n,
      (PhaseTracker.run red.analysis { mode, conflictChecks := checks }).result =
        .ok (red.tracker, n) ∧
      red.plan = Plan.build red.analysis red.tracker := by
  simp only [Program.reduceWith, Traced.result_bind] at h
  obtain ⟨cx, hcx, h⟩ := Checked.bind_ok.mp h
  obtain ⟨pt, hcreate, h⟩ := Checked.bind_ok.mp h
  obtain ⟨⟨pt', n⟩, hrun, h⟩ := Checked.bind_ok.mp h
  cases h
  obtain ⟨checks, rfl⟩ := PhaseTracker.create_ok hcreate
  exact ⟨hcx, checks, n, hrun, rfl⟩

def Program.racy : Program where
  procs := #[{ name := "main", blocks := [0], entry := some 0 },
    { name := "worker", blocks := [1], entry := some 1 }]
  blocks := #[{ name := "entry", proc := 0, ops := [0, 1, 2, 3, 4] },
    { name := "entry", proc := 1, ops := [5, 6] }]
  ops := #[⟨0, 0, .library (.threadCreate 1)⟩, ⟨0, 1, .library .yield⟩,
    ⟨0, 2, .memory .write (.named "x")⟩, ⟨0, 3, .memory .write (.named "x")⟩,
    ⟨0, 4, .terminator .ret⟩, ⟨1, 0, .memory .write (.named "x")⟩, ⟨1, 1, .terminator .ret⟩]

def Reduction.racy : Reduction := (Program.racy.reduce .static).result.toOption.getD default

theorem Program.reduce_racy : (Program.racy.reduce .static).result = .ok .racy :=
  Checked.ok_of_toOption (by decide +kernel)

namespace PhaseTracker

theorem racy_passes : ∀ o < 4, Passes Reduction.racy.analysis.prog o := by
  unfold Passes
  decide +kernel

theorem racy_trail : Trail Reduction.racy.analysis Reduction.racy.tracker 0
    [⟨0, 0⟩, ⟨1, 1⟩, ⟨2, 2⟩] ⟨0, 0⟩ [3, 4] := by
  have hfirst : Reduction.racy.analysis.prog.firstPoint
      (Reduction.racy.analysis.threads.get 0).proc = ⟨0, 0⟩ := by decide +kernel
  have hops : (⟨0, 0⟩ : Point).ops? Reduction.racy.analysis.prog = some [0, 1, 2, 3, 4] := by
    decide +kernel
  have h : Trail Reduction.racy.analysis Reduction.racy.tracker 0 [] ⟨0, 0⟩ [0, 1, 2, 3, 4] :=
    hfirst ▸ .start (hfirst.symm ▸ hops)
  exact ((h.pass (racy_passes 0 (by decide))).pass (racy_passes 1 (by decide))).pass
    (racy_passes 2 (by decide))

end PhaseTracker

/-- The second write comes past the commit point, and the yield that it asks for is filed. -/
theorem racy_second_write_is_covered :
    ∃ pt n, (PhaseTracker.run Reduction.racy.analysis pt).result = .ok (Reduction.racy.tracker, n) ∧
      ∃ r, Reduction.racy.tracker.requests.get? 0 3 = some r ∧
        BlockKind.static.strength ≤ r.kind.strength := by
  obtain ⟨-, checks, n, hrun, -⟩ := Program.reduceWith_ok Program.reduce_racy
  refine ⟨_, n, hrun, ?_⟩
  have hcover := phase_tracking_covers_paths hrun (by decide +kernel) PhaseTracker.racy_trail
  exact (hcover.2 3 [4] rfl).2 .static .after (by decide +kernel) 3 (by decide +kernel)

end YieldPlan
