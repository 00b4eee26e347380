import YieldPlan.Proofs.PhaseMonitor

/-! In dynamic mode the plan of a thread raises its phase variable whenever the thread commits.
Wherever the variable says that the thread is before its commit point, the tracker has run the
operations ahead before the commit point too; a mover that commits there has asked for a request
that raises the variable. The initialisation is the exception: it resets the variable without a
yield, and a loop may lead back to it. -/

namespace YieldPlan

namespace PhaseTracker

variable {cx : Analysis} {pt : PhaseTracker} {t : ThreadId} {w : Walk Tracking}

/-- What a thread with a plan does at a visit. A region runs as a whole after its begin marker; then
comes its end marker. -/
def phaseEvents (cx : Analysis) (pt : PhaseTracker) (plan : ThreadPlan) (v : Visit) :
    List PhaseEvent :=
  if cx.prog.kind v.op = .library .atomicBegin then
    plan.eventsAt v.op .before ++ plan.eventsAt v.op .after ++ .moves (moverAt cx pt v.op) ::
      (plan.eventsAt v.last .before ++ plan.eventsAt v.last .after)
  else
    plan.eventsAt v.op .before ++ .moves (moverAt cx pt v.op) ::
      ((if cx.prog.kind v.op = .library .yield then [.yields] else []) ++
        plan.eventsAt v.op .after)

structure Tracked (cx : Analysis) (pt : PhaseTracker) (t : ThreadId) (w : Walk Tracking) :
    Prop where
  coherent : cx.prog.Coherent
  scanned : Scanned cx pt
  mode : pt.mode = .dynamic
  finished : Finished cx pt t w.visited w.areas w.state
  requests : pt.requests.ofThread t = w.state.requests.ofThread t
  accounted : ∃ first, (cx.prog.firstPoint (cx.threads.get t).proc).op? cx.prog = some first ∧
    Accounted cx.prog first (pt.requests.ofThread t) w.areas w.visited

def AheadPre (cx : Analysis) (pt : PhaseTracker) (t : ThreadId) (w : Walk Tracking) (p : Point)
    (ops : List OpId) : Prop :=
  Ahead cx pt t w.visited w.areas w.state p ops .pre

/-- Wherever control comes to the operation, the tracker has run it before the commit point. -/
def Restarts (cx : Analysis) (pt : PhaseTracker) (t : ThreadId) (w : Walk Tracking) (x : OpId) :
    Prop :=
  ∀ p rest, x :: rest <:+ (cx.prog.block p.block).ops → AheadPre cx pt t w p (x :: rest)

/-- A request on this side of the operation raises the phase variable. -/
def Raised (pt : PhaseTracker) (t : ThreadId) (x : OpId) (side : Placement) : Prop :=
  ∃ r, pt.requests.get? t x = some r ∧ r.kind ≠ .loopBreak ∧ r.placement = side

/-- If the phase variable is not raised, neither the thread nor the tracker is past the commit
point. -/
def Conservative (cx : Analysis) (pt : PhaseTracker) (t : ThreadId) (w : Walk Tracking) (p : Point)
    (ops : List OpId) (m : Monitor) : Prop :=
  m.phase = .pre → m.committed = false ∧ AheadPre cx pt t w p ops

theorem phaseAfter_pre {o : OpId} (h : ¬ (moverAt cx pt o).Commits) :
    phaseAfter cx pt o .pre = .pre := by
  unfold phaseAfter
  split
  · rfl
  · cases hm : moverAt cx pt o <;> simp_all [Mover.Commits, Mover.phase]

theorem run_tracked {checks : Bool} {n : Nat} (hc : cx.prog.Coherent)
    (h : (run cx { mode := .dynamic, conflictChecks := checks }).result = .ok (pt, n))
    (ht : t ∈ cx.threads.ids) : ∃ w, Tracked cx pt t w := by
  obtain ⟨w₀, w, hkept⟩ := run_kept h ht
  obtain ⟨-, hmode, -⟩ := run_finished h
  exact ⟨w, hc, scanned_of_run h, hmode, hkept.finished,
    hkept.requests, hkept.accounted hmode⟩

namespace Tracked

variable (h : Tracked cx pt t w)

include h

theorem aheadPre {p : Point} {ops : List OpId} {b : Area} (hp : p ∈ w.visited)
    (hops : p.ops? cx.prog = some ops) (hb : w.areas.get? p = some b) (hpre : Area.pre ≤ b) :
    AheadPre cx pt t w p ops :=
  h.finished.ahead hp hops hb hpre

theorem restarts_of_entered {p : Point} {x : OpId} {b : Area} (hp : p ∈ w.visited)
    (hx : p.op? cx.prog = some x) (hb : w.areas.get? p = some b) (hpre : Area.pre ≤ b) :
    Restarts cx pt t w x := by
  intro q rest hs
  obtain ⟨tail, hops⟩ := Program.ops?_of_opAt? hx
  obtain ⟨hblock, hdrop⟩ := h.coherent.drop_of_suffix (Program.ops?_suffix hops)
  obtain ⟨hblock', hdrop'⟩ := h.coherent.drop_of_suffix hs
  have hsame : p.block = q.block := hblock.symm.trans hblock'
  rw [← hsame, hdrop] at hdrop'
  have hahead := h.aheadPre hp hops hb hpre
  unfold AheadPre Ahead at hahead ⊢
  rw [← hsame, ← hdrop']
  exact hahead

theorem restarts {first x : OpId}
    (hfirst : (cx.prog.firstPoint (cx.threads.get t).proc).op? cx.prog = some first)
    (hx : x = first ∨ Meeting cx.prog w.areas w.visited x) : Restarts cx pt t w x := by
  rcases hx with rfl | ⟨p, hp, hop, htop⟩
  · obtain ⟨hmem, b, hb, hle⟩ := h.finished.first
    exact h.restarts_of_entered hmem hfirst hb hle
  · exact h.restarts_of_entered hp hop htop (by decide)

variable {m m' : Monitor}

/-- The actions next to an operation raise the phase variable, or they leave the monitor alone, or
they start anew at an operation that the tracker has run before the commit point. -/
theorem run_eventsAt {x : OpId} {side : Placement}
    (hrun : Monitor.Run Monitor.Uncommitted m ((Plan.ofThread cx pt t).eventsAt x side) m')
    (hpre : m'.phase = .pre) : ¬ Raised pt t x side ∧
      (m' = m ∨ m' = ⟨.pre, false⟩ ∧ side = .before ∧ Restarts cx pt t w x) := by
  obtain ⟨first, hfirst, hacc⟩ := h.accounted
  obtain ⟨inits, hinits, hevents⟩ :=
    @Plan.eventsAt_ofThread cx pt t x side first hacc.nodup hacc.head
  rw [hevents] at hrun
  obtain ⟨m₁, hinit, hrun⟩ := Monitor.run_append.mp hrun
  have hm₁ : m₁ = m ∨ m₁ = ⟨.pre, false⟩ ∧ side = .before ∧ Restarts cx pt t w x := by
    rcases hinits with rfl | ⟨rfl, rfl, rfl⟩
    · cases hinit
      exact .inl rfl
    · exact .inr ⟨hinit.anew (.inl rfl), rfl, h.restarts hfirst (.inl rfl)⟩
  cases hget : pt.requests.get? t x with
  | none =>
    rw [hget] at hrun
    cases hrun
    refine ⟨?_, hm₁⟩
    rintro ⟨r, hr, -⟩
    rw [hget] at hr
    cases hr
  | some r =>
    rw [hget, Option.elim_some] at hrun
    obtain ⟨hstatic, hbreak⟩ := hacc.fair r (List.mem_of_find?_eq_some hget)
    rw [BlockStarts.op_of_get? hget] at hbreak
    have hraised : Raised pt t x side → r.kind ≠ .loopBreak ∧ r.placement = side := by
      rintro ⟨r', hr', hside⟩
      obtain rfl : r = r' := Option.some.inj (hget.symm.trans hr')
      exact hside
    rcases @Plan.eventsOf_dynamic cx pt side h.mode r hstatic with
      ⟨hloop, hnil | ⟨hside, hanew⟩⟩ | ⟨-, a, ha, hevents⟩
    · rw [hnil] at hrun
      cases hrun
      exact ⟨fun hr => (hraised hr).1 hloop, hm₁⟩
    · refine ⟨fun hr => (hraised hr).1 hloop, .inr ⟨hrun.anew hanew, hside, ?_⟩⟩
      exact h.restarts hfirst (hbreak hloop)
    · rw [hevents] at hrun
      split at hrun
      · rw [(Monitor.run_singleton.mp hrun).raised ha] at hpre
        cases hpre
      · next hside =>
        cases hrun
        exact ⟨fun hr => hside (hraised hr).2, hm₁⟩

theorem raised_of_commits {p : Point} {o x : OpId} {rest : List OpId}
    (hahead : AheadPre cx pt t w p (o :: rest)) (hx : x ∈ requestOps cx pt o)
    (hcommits : (moverAt cx pt o).Commits) : Raised pt t x .before ∨ Raised pt t x .after := by
  have hdemand : demandAt cx pt o .pre = some (.phaseShift, .after) := by
    rcases hcommits with hm | hm <;> simp [demandAt, hm, h.mode, transition, Area.mayBePost]
  obtain ⟨r, hr, hstrong⟩ := hahead.visit.requests _ _ hdemand x hx
  have hget : pt.requests.get? t x = some r := by
    rw [BlockStarts.get?, h.requests]
    exact hr
  have hkind : r.kind ≠ .loopBreak := by
    intro hk
    rw [hk] at hstrong
    exact absurd hstrong (by decide)
  cases hp : r.placement with
  | before => exact .inl ⟨r, hget, hkind, hp⟩
  | after => exact .inr ⟨r, hget, hkind, hp⟩

theorem conservative_eventsAt {p : Point} {o : OpId} {rest : List OpId} {side : Placement}
    (hs : o :: rest <:+ (cx.prog.block p.block).ops) (hm : Conservative cx pt t w p (o :: rest) m)
    (hrun : Monitor.Run Monitor.Uncommitted m ((Plan.ofThread cx pt t).eventsAt o side) m') :
    Conservative cx pt t w p (o :: rest) m' := by
  intro hpre
  obtain ⟨-, rfl | ⟨rfl, -, hrestarts⟩⟩ := h.run_eventsAt hrun hpre
  · exact hm hpre
  · exact ⟨rfl, hrestarts p rest hs⟩

theorem run_single {p : Point} {v : Visit} {rest : List OpId}
    (hs : v.op :: rest <:+ (cx.prog.block p.block).ops)
    (hm : Conservative cx pt t w p (v.op :: rest) m)
    (hk : cx.prog.kind v.op ≠ .library .atomicBegin)
    (hrun : Monitor.Run Monitor.Uncommitted m (phaseEvents cx pt (Plan.ofThread cx pt t) v) m')
    (hpre : m'.phase = .pre) : m'.committed = false ∧
      AheadPre cx pt t w p (v.op :: rest) ∧ ¬ (moverAt cx pt v.op).Commits := by
  rw [phaseEvents, if_neg hk] at hrun
  obtain ⟨m₁, hbefore, hrun⟩ := Monitor.run_append.mp hrun
  obtain ⟨c, hrun, hc⟩ := Monitor.run_moves hrun
  obtain ⟨m₂, hyield, hafter⟩ := Monitor.run_append.mp hrun
  obtain ⟨hquiet, rfl | ⟨-, hside, -⟩⟩ := h.run_eventsAt hafter hpre
  · have hm' : m'.phase = m₁.phase ∧ (c = false → m'.committed = false) := by
      split at hyield
      · cases Monitor.run_singleton.mp hyield
        exact ⟨rfl, fun _ => rfl⟩
      · cases hyield
        exact ⟨rfl, id⟩
    have hpre₁ : m₁.phase = .pre := hm'.1.symm.trans hpre
    obtain ⟨hcommitted, hahead⟩ := h.conservative_eventsAt hs hm hbefore hpre₁
    have hmover : ¬ (moverAt cx pt v.op).Commits := by
      intro hcommits
      have hop : v.op ∈ requestOps cx pt v.op := by simp [requestOps, opens?_of_ne hk]
      rcases h.raised_of_commits hahead hop hcommits with hr | hr
      · exact (h.run_eventsAt hbefore hpre₁).1 hr
      · exact hquiet hr
    exact ⟨hm'.2 ((hc hmover).trans hcommitted), hahead, hmover⟩
  · cases hside

theorem run_region {p : Point} {v : Visit} {rest : List OpId}
    (hs : v.op :: rest <:+ (cx.prog.block p.block).ops)
    (hm : Conservative cx pt t w p (v.op :: rest) m)
    (hk : cx.prog.kind v.op = .library .atomicBegin) (hlast : v.last ∈ requestOps cx pt v.op)
    (hrun : Monitor.Run Monitor.Uncommitted m (phaseEvents cx pt (Plan.ofThread cx pt t) v) m')
    (hpre : m'.phase = .pre) : m'.committed = false ∧
      (AheadPre cx pt t w p (v.op :: rest) ∧ ¬ (moverAt cx pt v.op).Commits ∨
        Restarts cx pt t w v.last) := by
  rw [phaseEvents, if_pos hk, List.append_assoc] at hrun
  obtain ⟨m₁, hbegin, hrun⟩ := Monitor.run_append.mp hrun
  obtain ⟨m₂, hbegin', hrun⟩ := Monitor.run_append.mp hrun
  have hm₂ := h.conservative_eventsAt hs (h.conservative_eventsAt hs hm hbegin) hbegin'
  obtain ⟨c, hrun, hc⟩ := Monitor.run_moves hrun
  obtain ⟨m₃, hbefore, hafter⟩ := Monitor.run_append.mp hrun
  obtain ⟨hquiet, rfl | ⟨-, hside, -⟩⟩ := h.run_eventsAt hafter hpre
  · -- A loop may be broken at the end marker. The thread yields then, with the region behind it.
    obtain ⟨hquiet', rfl | ⟨rfl, -, hrestarts⟩⟩ := h.run_eventsAt hbefore hpre
    · obtain ⟨hcommitted, hahead⟩ := hm₂ hpre
      have hmover : ¬ (moverAt cx pt v.op).Commits := by
        intro hcommits
        rcases h.raised_of_commits hahead hlast hcommits with hr | hr
        · exact hquiet' hr
        · exact hquiet hr
      exact ⟨(hc hmover).trans hcommitted, .inl ⟨hahead, hmover⟩⟩
    · exact ⟨rfl, .inr hrestarts⟩
  · cases hside

theorem aheadPre_after {e : OpId} {ops : List OpId} (he : cx.prog.kind e = .library .atomicEnd)
    (hrestarts : Restarts cx pt t w e) (hops : (cx.prog.pointAfter e).ops? cx.prog = some ops) :
    AheadPre cx pt t w (cx.prog.pointAfter e) ops := by
  have hlt : e < cx.prog.ops.size := Program.lt_of_kind_ne (by simp [he])
  have hsuffix := h.coherent.suffix_of_pointAfter hlt hops
  have hpasses : Passes cx.prog e := by
    refine ⟨?_, ?_, ?_⟩ <;> simp [he, OpKind.isTerminator, OpKind.callee?]
  have hmover : ¬ (moverAt cx pt e).Commits := by
    rw [moverAt, opens?_of_ne hpasses.2.2, movable_of_marker (.inr (.inl he))]
    simp [Mover.Commits]
  have hahead := Ahead.pass (hrestarts (cx.prog.pointAfter e) ops hsuffix) hpasses
  rwa [phaseAfter_pre hmover] at hahead

theorem conservative_pass {p : Point} {o : OpId} {rest : List OpId}
    (hs : o :: rest <:+ (cx.prog.block p.block).ops) (hm : Conservative cx pt t w p (o :: rest) m)
    (hpasses : Passes cx.prog o)
    (hrun : Monitor.Run Monitor.Uncommitted m
      (phaseEvents cx pt (Plan.ofThread cx pt t) ⟨o, o⟩) m') : Conservative cx pt t w p rest m' := by
  intro hpre
  obtain ⟨hcommitted, hahead, hmover⟩ := h.run_single hs hm hpasses.2.2 hrun hpre
  refine ⟨hcommitted, ?_⟩
  have hrest := Ahead.pass hahead hpasses
  rwa [phaseAfter_pre hmover] at hrest

theorem conservative_jump {p q : Point} {v : Visit} {rest ops : List OpId}
    (hs : v.op :: rest <:+ (cx.prog.block p.block).ops)
    (hm : Conservative cx pt t w p (v.op :: rest) m) (hl : Leads cx pt t p rest v q)
    (hops : q.ops? cx.prog = some ops)
    (hrun : Monitor.Run Monitor.Uncommitted m (phaseEvents cx pt (Plan.ofThread cx pt t) v) m') :
    Conservative cx pt t w q ops m' := by
  intro hpre
  have hjump : AheadPre cx pt t w p (v.op :: rest) → ¬ (moverAt cx pt v.op).Commits →
      AheadPre cx pt t w q ops := by
    intro hahead hmover
    obtain ⟨hq, b, hb, hle⟩ := Ahead.jump hahead hl
    rw [phaseAfter_pre hmover] at hle
    exact h.aheadPre hq hops hb hle
  have hsingle : cx.prog.kind v.op ≠ .library .atomicBegin →
      m'.committed = false ∧ AheadPre cx pt t w q ops := by
    intro hk
    obtain ⟨hcommitted, hahead, hmover⟩ := h.run_single hs hm hk hrun hpre
    exact ⟨hcommitted, hjump hahead hmover⟩
  have hlast := hl.last_mem
  cases hl with
  | branch hk => exact hsingle (by simp [hk])
  | call hk => exact hsingle (by simp [hk])
  | ret hk => exact hsingle (by simp [hk])
  | @region _ o e region exit hk hat hexit =>
    obtain ⟨hcommitted, ⟨hahead, hmover⟩ | hrestarts⟩ := h.run_region hs hm hk hlast hrun hpre
    · exact ⟨hcommitted, hjump hahead hmover⟩
    · rw [h.scanned.regionAt] at hat
      obtain ⟨he, rfl⟩ := (AtomicRegion.mem_zip_exits hat).mp hexit
      exact ⟨hcommitted, h.aheadPre_after ((AtomicRegion.scan_ok hat).1 e he) hrestarts hops⟩

/-- Along every path of the tracker the phase variable stays conservative. -/
theorem conservative_trail {vs : List Visit} {p : Point} {rest : List OpId}
    (htrail : Trail cx pt t vs p rest) {phase : Phase} {m : Monitor}
    (hrun : Monitor.Run Monitor.Uncommitted ⟨phase, false⟩
      (vs.flatMap (phaseEvents cx pt (Plan.ofThread cx pt t))) m) :
    Conservative cx pt t w p rest m := by
  induction htrail generalizing m with
  | start hops =>
    cases hrun
    obtain ⟨hmem, b, hb, hle⟩ := h.finished.first
    exact fun _ => ⟨rfl, h.aheadPre hmem hops hb hle⟩
  | pass htrail hpasses ih =>
    rw [List.flatMap_append, List.flatMap_singleton] at hrun
    obtain ⟨m₁, hbefore, hvisit⟩ := Monitor.run_append.mp hrun
    exact h.conservative_pass htrail.mem (ih hbefore) hpasses hvisit
  | jump htrail hl hops ih =>
    rw [List.flatMap_append, List.flatMap_singleton] at hrun
    obtain ⟨m₁, hbefore, hvisit⟩ := Monitor.run_append.mp hrun
    exact h.conservative_jump htrail.mem (ih hbefore) hl hops hvisit

end Tracked

end PhaseTracker

open PhaseTracker in
/-- In dynamic mode a thread that has committed since its last yield finds its phase variable at
`post` before each operation, if it executes the initialisation only while it has not committed. -/
theorem phase_variable_is_conservative {prog : Program} (hbuilt : prog.Built)
    {mayAlias : AliasOracle} {red : Reduction}
    (h : (prog.reduceWith mayAlias .dynamic).result = .ok red) {plan : ThreadPlan}
    (hplan : plan ∈ red.plan.threads) {vs : List Visit} {p : Point} {o : OpId} {rest : List OpId}
    (htrail : Trail red.analysis red.tracker plan.thread vs p (o :: rest)) {phase : Phase}
    {m : Monitor} (hrun : Monitor.Run Monitor.Uncommitted ⟨phase, false⟩
      (vs.flatMap (phaseEvents red.analysis red.tracker plan) ++ plan.eventsAt o .before) m)
    (hm : m.committed = true) : m.phase = .post := by
  obtain ⟨hcx, checks, n, htrack, hbuild⟩ := Program.reduceWith_ok h
  rw [hbuild] at hplan
  obtain ⟨t, ht, rfl⟩ := List.mem_map.mp hplan
  have ha := Program.analyze_ok hcx
  obtain rfl := ha.prog_eq
  obtain ⟨w, htracked⟩ := run_tracked hbuilt.coherent.1 htrack ht
  obtain ⟨m₁, hpath, hbefore⟩ := Monitor.run_append.mp hrun
  have hconservative := htracked.conservative_eventsAt htrail.mem
    (htracked.conservative_trail htrail hpath) hbefore
  cases hphase : m.phase with
  | post => rfl
  | pre =>
    rw [(hconservative hphase).1] at hm
    cases hm

def BuildStep.loopedRegionSteps : List BuildStep :=
  [.proc "main", .proc "worker", .block 0 "entry", .block 0 "loop", .block 1 "entry",
    .op 0 (.library (.threadCreate 1)), .op 0 (.library .yield), .branch 0 [1], .op 1 .local,
    .op 1 (.library .atomicBegin), .op 1 (.memory .write (.named "x")),
    .op 1 (.memory .write (.named "x")), .op 1 (.library .atomicEnd), .branch 1 [1],
    .op 2 (.memory .write (.named "x")), .op 2 (.terminator .ret)]

def Program.loopedRegion : Program :=
  ((BuildStep.applyAll {} BuildStep.loopedRegionSteps).toOption.getD default).1

theorem Program.built_loopedRegion : Program.loopedRegion.Built := by
  refine .inl ⟨BuildStep.loopedRegionSteps, .loopedRegion,
    [0, 1, 0, 1, 2, 0, 1, 2, 3, 4, 5, 6, 7, 8, 9, 10], ?_, ?_⟩
  · decide +kernel
  · decide +kernel

def Reduction.loopedRegion : Reduction :=
  (Program.loopedRegion.reduce .dynamic).result.toOption.getD default

def ThreadPlan.loopedRegion : ThreadPlan :=
  Plan.ofThread Reduction.loopedRegion.analysis Reduction.loopedRegion.tracker 0

namespace PhaseTracker

theorem loopedRegion_trail : Trail Reduction.loopedRegion.analysis Reduction.loopedRegion.tracker 0
    [⟨0, 0⟩, ⟨1, 1⟩, ⟨2, 2⟩, ⟨3, 3⟩, ⟨4, 7⟩] ⟨1, 5⟩ [8] := by
  have hfirst : Reduction.loopedRegion.analysis.prog.firstPoint
      (Reduction.loopedRegion.analysis.threads.get 0).proc = ⟨0, 0⟩ := by decide +kernel
  have hentry : (⟨0, 0⟩ : Point).ops? Reduction.loopedRegion.analysis.prog = some [0, 1, 2] := by
    decide +kernel
  have hpasses : ∀ o ∈ [0, 1, 3], Passes Reduction.loopedRegion.analysis.prog o := by
    unfold Passes
    decide +kernel
  have hregion := Checked.ok_of_toOption
    (x := regionAt Reduction.loopedRegion.analysis Reduction.loopedRegion.tracker 4)
    (by decide +kernel)
  have h : Trail Reduction.loopedRegion.analysis Reduction.loopedRegion.tracker 0 [] ⟨0, 0⟩
      [0, 1, 2] := hfirst ▸ .start (hfirst.symm ▸ hentry)
  have hbody : (⟨1, 0⟩ : Point).ops? Reduction.loopedRegion.analysis.prog =
      some [3, 4, 5, 6, 7, 8] := by
    decide +kernel
  have hloop := ((h.pass (hpasses 0 (by decide))).pass (hpasses 1 (by decide))).jump (v := ⟨2, 2⟩)
    (.branch (by decide +kernel) (by decide +kernel)) hbody
  exact (hloop.pass (hpasses 3 (by decide))).jump (v := ⟨4, 7⟩)
    (.region (by decide +kernel) hregion (by decide +kernel)) (by decide +kernel)

/-- The loop is broken before the local operation, and the conflict check behind the region finds
the phase variable at `pre`. -/
theorem loopedRegion_run : Monitor.Run Monitor.Uncommitted ⟨.pre, false⟩
    (List.flatMap (phaseEvents Reduction.loopedRegion.analysis Reduction.loopedRegion.tracker
      .loopedRegion) [⟨0, 0⟩, ⟨1, 1⟩, ⟨2, 2⟩, ⟨3, 3⟩, ⟨4, 7⟩] ++
      ThreadPlan.loopedRegion.eventsAt 8 .before) ⟨.post, true⟩ := by
  have hevents : List.flatMap (phaseEvents Reduction.loopedRegion.analysis
      Reduction.loopedRegion.tracker .loopedRegion) [⟨0, 0⟩, ⟨1, 1⟩, ⟨2, 2⟩, ⟨3, 3⟩, ⟨4, 7⟩] ++
      ThreadPlan.loopedRegion.eventsAt 8 .before =
    [.acts .initPhase, .moves .left, .acts (.setPhase .post), .moves .both, .yields, .moves .both,
      .acts .yield, .acts (.setPhase .pre), .moves .both, .moves .none,
      .acts (.conflictGuardedYield [⟨"worker", 0⟩])] := by
    decide +kernel
  have hboth : ¬ Mover.both.Commits := by simp [Mover.Commits]
  rw [hevents]
  exact .cons (.init rfl) (.cons (.commit (.inl rfl)) (.cons .set (.cons (.move hboth)
    (.cons .yieldCall (.cons (.move hboth) (.cons .yield (.cons .set (.cons (.move hboth)
    (.cons (.commit (.inr rfl)) (.cons (.guardPasses trivial rfl) .nil))))))))))

end PhaseTracker

open PhaseTracker in
theorem looped_region_finds_phase_raised :
    Program.loopedRegion.Built ∧ (Program.loopedRegion.reduce .dynamic).result = .ok .loopedRegion ∧
      ThreadPlan.loopedRegion ∈ Reduction.loopedRegion.plan.threads ∧
      Trail Reduction.loopedRegion.analysis Reduction.loopedRegion.tracker 0
        [⟨0, 0⟩, ⟨1, 1⟩, ⟨2, 2⟩, ⟨3, 3⟩, ⟨4, 7⟩] ⟨1, 5⟩ [8] ∧
      ∃ m : Monitor, Monitor.Run Monitor.Uncommitted ⟨.pre, false⟩
        ([⟨0, 0⟩, ⟨1, 1⟩, ⟨2, 2⟩, ⟨3, 3⟩, ⟨4, 7⟩].flatMap (phaseEvents
          Reduction.loopedRegion.analysis Reduction.loopedRegion.tracker .loopedRegion) ++
          ThreadPlan.loopedRegion.eventsAt 8 .before) m ∧
        m.committed = true ∧ m.phase = .post := by
  have hok : (Program.loopedRegion.reduce .dynamic).result = .ok .loopedRegion :=
    Checked.ok_of_toOption (by decide +kernel)
  have hplan : ThreadPlan.loopedRegion ∈ Reduction.loopedRegion.plan.threads := by decide +kernel
  refine ⟨Program.built_loopedRegion, hok, hplan, loopedRegion_trail, _, loopedRegion_run, rfl, ?_⟩
  exact phase_variable_is_conservative Program.built_loopedRegion hok hplan loopedRegion_trail
    loopedRegion_run rfl

def BuildStep.spawningLoopSteps : List BuildStep :=
  [.proc "main", .proc "worker", .block 0 "loop", .block 1 "entry", .op 0 .local,
    .op 0 (.library (.threadCreate 1)), .branch 0 [0], .op 1 (.terminator .ret)]

def Program.spawningLoop : Program :=
  ((BuildStep.applyAll {} BuildStep.spawningLoopSteps).toOption.getD default).1

theorem Program.built_spawningLoop : Program.spawningLoop.Built := by
  refine .inl ⟨BuildStep.spawningLoopSteps, .spawningLoop, [0, 1, 0, 1, 0, 1, 2, 3], ?_, ?_⟩
  · decide +kernel
  · decide +kernel

def Reduction.spawningLoop : Reduction :=
  (Program.spawningLoop.reduce .dynamic).result.toOption.getD default

namespace PhaseTracker

theorem spawningLoop_trail : Trail Reduction.spawningLoop.analysis Reduction.spawningLoop.tracker 0
    [⟨0, 0⟩, ⟨1, 1⟩, ⟨2, 2⟩] ⟨0, 0⟩ [0, 1, 2] := by
  have hfirst : Reduction.spawningLoop.analysis.prog.firstPoint
      (Reduction.spawningLoop.analysis.threads.get 0).proc = ⟨0, 0⟩ := by decide +kernel
  have hops : (⟨0, 0⟩ : Point).ops? Reduction.spawningLoop.analysis.prog = some [0, 1, 2] := by
    decide +kernel
  have hpasses : ∀ o < 2, Passes Reduction.spawningLoop.analysis.prog o := by
    unfold Passes
    decide +kernel
  have h : Trail Reduction.spawningLoop.analysis Reduction.spawningLoop.tracker 0 [] ⟨0, 0⟩
      [0, 1, 2] := hfirst ▸ .start (hfirst.symm ▸ hops)
  exact ((h.pass (hpasses 0 (by decide))).pass (hpasses 1 (by decide))).jump (v := ⟨2, 2⟩)
    (.branch (by decide +kernel) (by decide +kernel)) hops

end PhaseTracker

open PhaseTracker in
/-- Without the condition the initialisation resets the phase variable of a thread that has created
a thread and has not yielded since. -/
theorem initialisation_resets_committed_thread :
    Program.spawningLoop.Built ∧ ∃ red, (Program.spawningLoop.reduce .dynamic).result = .ok red ∧
      ∃ plan ∈ red.plan.threads,
        Trail red.analysis red.tracker plan.thread [⟨0, 0⟩, ⟨1, 1⟩, ⟨2, 2⟩] ⟨0, 0⟩ [0, 1, 2] ∧
        ∃ m : Monitor, Monitor.Run (fun _ => True) ⟨.pre, false⟩
          ([⟨0, 0⟩, ⟨1, 1⟩, ⟨2, 2⟩].flatMap (phaseEvents red.analysis red.tracker plan) ++
            plan.eventsAt 0 .before) m ∧ m.committed = true ∧ m.phase = .pre := by
  have hok : (Program.spawningLoop.reduce .dynamic).result = .ok .spawningLoop :=
    Checked.ok_of_toOption (by decide +kernel)
  refine ⟨Program.built_spawningLoop, _, hok,
    Plan.ofThread Reduction.spawningLoop.analysis Reduction.spawningLoop.tracker 0,
    by decide +kernel, spawningLoop_trail, ⟨.pre, true⟩, ?_, rfl, rfl⟩
  have hevents : List.flatMap (phaseEvents Reduction.spawningLoop.analysis
      Reduction.spawningLoop.tracker
      (Plan.ofThread Reduction.spawningLoop.analysis Reduction.spawningLoop.tracker 0))
      [⟨0, 0⟩, ⟨1, 1⟩, ⟨2, 2⟩] ++ (Plan.ofThread Reduction.spawningLoop.analysis
      Reduction.spawningLoop.tracker 0).eventsAt 0 .before =
    [.acts .initPhase, .moves .both, .moves .left, .acts (.setPhase .post), .moves .both,
      .acts .initPhase] := by
    decide +kernel
  have hboth : ¬ Mover.both.Commits := by simp [Mover.Commits]
  rw [hevents]
  exact .cons (.init trivial) (.cons (.move hboth) (.cons (.commit (.inl rfl)) (.cons .set
    (.cons (.move hboth) (.cons (.init trivial) .nil)))))

end YieldPlan
