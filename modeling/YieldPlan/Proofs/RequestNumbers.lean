import YieldPlan.Proofs.PhaseStability
import YieldPlan.Proofs.ThreadRequests

/-! The requests of a thread are numbered as they are filed, from that at its first operation on. A
request that is strengthened keeps its number, so what a thread has after any number of passes is
still one request for each number and for each operation, and the plan can tell by the number where
the thread begins. -/

namespace YieldPlan

namespace BlockStarts

/-- The requests of a thread, numbered in their order and each at an operation of its own, of which
the first is for the operation `first`. -/
structure InSequence (first : OpId) (requests : List BlockStart) : Prop where
  ids : requests.map (·.id) = List.range requests.length
  nodup : (requests.map (·.op)).Nodup
  head : (requests.map (·.op)).head? = some first

variable {b b' : BlockStarts} {t : ThreadId} {first : OpId} {requests : List BlockStart}

theorem InSequence.cases (h : InSequence first requests) :
    ∃ r rest, requests = r :: rest ∧ r.op = first ∧ r.id = 0 ∧ ∀ r' ∈ rest, r'.id ≠ 0 := by
  obtain ⟨hids, -, hhead⟩ := h
  cases requests with
  | nil => simp at hhead
  | cons r rest =>
    simp only [List.map_cons, List.length_cons, List.range_succ_eq_map, List.cons.injEq] at hids
    refine ⟨r, rest, rfl, by simpa using hhead, hids.1, ?_⟩
    intro r' hr' hzero
    have hmem : r'.id ∈ rest.map (·.id) := List.mem_map_of_mem hr'
    rw [hids.2, hzero] at hmem
    simp at hmem

theorem InSequence.zero_iff (h : InSequence first requests) {r : BlockStart} (hr : r ∈ requests) :
    r.id = 0 ↔ r.op = first := by
  have hnodup := h.nodup
  obtain ⟨r₀, rest, rfl, hop, hid, hrest⟩ := h.cases
  rw [List.map_cons, List.nodup_cons] at hnodup
  rcases List.mem_cons.mp hr with rfl | hr
  · simp [hop, hid]
  · constructor
    · intro hzero
      exact absurd hzero (hrest r hr)
    · intro hfirst
      exact absurd (List.mem_map.mpr ⟨r, hr, hfirst.trans hop.symm⟩) hnodup.1

theorem get?_of_mem (hnodup : ((b.ofThread t).map (·.op)).Nodup) {r : BlockStart}
    (hr : r ∈ b.ofThread t) : b.get? t r.op = some r := by
  obtain ⟨old, hold⟩ : ∃ old, b.get? t r.op = some old :=
    Option.isSome_iff_exists.mp (List.find?_isSome.mpr ⟨r, hr, by simp⟩)
  have hmem : old ∈ b.ofThread t := List.mem_of_find?_eq_some hold
  rw [hold, List.inj_on_of_nodup_map hnodup hmem hr (op_of_get? hold)]

theorem InSequence.file {o : OpId} {kind : BlockKind} {placement : Placement}
    {sources : List OpId} (h : InSequence first (b.ofThread t)) :
    InSequence first ((b.file t o kind placement sources).1.ofThread t) := by
  have hids : ∀ r ∈ b.ofThread t, r.op = o → (b.after t o kind placement sources).id = r.id := by
    rintro r hr rfl
    simp [after, get?_of_mem h.nodup hr, id_merge]
  have hlength : ((b.file t o kind placement sources).1.ofThread t).length =
      (((b.file t o kind placement sources).1.ofThread t).map (·.op)).length :=
    (List.length_map ..).symm
  constructor
  · rw [map_file (·.id) hids, hlength, ops_file]
    split
    · rw [List.length_map, h.ids]
    · simp [h.ids, List.range_succ]
  · exact nodup_ops_file h.nodup
  · exact head_ops_file h.head

theorem InSequence.files {allowed : OpId → BlockKind → Placement → Prop}
    (h : InSequence first (b.ofThread t)) (hfiles : Relation.ReflTransGen (Files t allowed) b b') :
    InSequence first (b'.ofThread t) := by
  apply files_keep _ hfiles h
  intro b o kind placement sources hb _
  exact hb.file

end BlockStarts

namespace PhaseTracker

open BlockStarts

variable {cx : Analysis} {pt pt' : PhaseTracker} {t : ThreadId} {n : Nat}

def Sequenced (cx : Analysis) (t : ThreadId) (b : BlockStarts) : Prop :=
  ∃ first, (cx.prog.firstPoint (cx.threads.get t).proc).op? cx.prog = some first ∧
    InSequence first (b.ofThread t)

def Orderly (cx : Analysis) (b : BlockStarts) : Prop :=
  ∀ t, b.ofThread t = [] ∨ Sequenced cx t b

theorem walkThread_sequenced {w₀ w : Walk Tracking} (h : walkThread cx pt t w₀ = .ok () w)
    (hw₀ : Orderly cx w₀.state.requests) : Sequenced cx t w.state.requests := by
  obtain ⟨first, s, hfirst, hfile, hwalk⟩ := walkThread_cases h
  refine ⟨first, hfirst, ?_⟩
  have hstart : InSequence first (s.requests.ofThread t) := by
    rcases hw₀ t with hnone | ⟨first', hfirst', hseq⟩
    · obtain ⟨sources, hs⟩ := file_first hnone hfile
      rw [hs]
      constructor <;> simp
    · obtain rfl : first = first' := Option.some.inj (hfirst.symm.trans hfirst')
      exact hseq.files (.single (file_files hfile))
  exact hstart.files (Walk.walk_respects processor_files hwalk)

theorem addThread_sequenced (h : (addThread cx pt t).result = .ok (pt', n))
    (hpt : Orderly cx pt.requests) : Sequenced cx t pt'.requests ∧ Orderly cx pt'.requests := by
  have hself : Sequenced cx t pt'.requests := by
    obtain ⟨w, hw, rfl⟩ := addThread_cases h
    exact walkThread_sequenced hw hpt
  refine ⟨hself, fun u => ?_⟩
  by_cases hu : u = t
  · exact .inr (hu ▸ hself)
  · obtain ⟨hsame, -⟩ := addThread_others h hu
    unfold Sequenced
    rw [hsame]
    exact hpt u

theorem addThreads_sequenced {ts : List ThreadId} (h : (addThreads cx pt ts).result = .ok (pt', n))
    (hpt : Orderly cx pt.requests) :
    (∀ t ∈ ts, Sequenced cx t pt'.requests) ∧ Orderly cx pt'.requests := by
  induction ts generalizing pt n with
  | nil =>
    cases h
    exact ⟨by simp, hpt⟩
  | cons t ts ih =>
    obtain ⟨pt₁, n₁, n₂, h₁, h₂, -⟩ := addThreads_cons h
    obtain ⟨hself, hpt₁⟩ := addThread_sequenced h₁ hpt
    obtain ⟨hrest, hpt₂⟩ := ih h₂ hpt₁
    refine ⟨?_, hpt₂⟩
    intro u hu
    by_cases hmem : u ∈ ts
    · exact hrest u hmem
    · obtain rfl : u = t := (List.mem_cons.mp hu).resolve_right hmem
      obtain ⟨hsame, -⟩ := addThreads_others h₂ hmem
      unfold Sequenced
      rw [hsame]
      exact hself

theorem reran_sequenced {pt₁ : PhaseTracker} (h : (run cx pt).result = .ok (pt₁, n))
    (hreran : Relation.ReflTransGen (Reran cx) pt₁ pt') (hpt : Orderly cx pt.requests) :
    pt'.mode = pt.mode ∧ ∀ t ∈ cx.threads.ids, Sequenced cx t pt'.requests := by
  suffices hkept : pt'.mode = pt.mode ∧ (∀ t ∈ cx.threads.ids, Sequenced cx t pt'.requests) ∧
      Orderly cx pt'.requests from ⟨hkept.1, hkept.2.1⟩
  induction hreran with
  | refl =>
    obtain ⟨pt₂, h₁, h₂⟩ := run_cases h
    obtain ⟨hview, -, hmode⟩ := addRegions_view h₁
    have hrequests : pt₂.requests = pt.requests := congrArg Tracking.requests hview
    exact ⟨(addThreads_ok h₂).1.mode.trans hmode, addThreads_sequenced h₂ (hrequests ▸ hpt)⟩
  | tail _ hlast ih =>
    obtain ⟨hmode, -, hordered⟩ := ih
    obtain ⟨n', hn'⟩ := hlast
    exact ⟨(addThreads_ok hn').1.mode.trans hmode, addThreads_sequenced hn' hordered⟩

end PhaseTracker

/-- In dynamic mode the plan sets the phase variable before the first operation, ahead of everything
else, and nowhere else; in static mode it never does. -/
def ThreadPlan.Initialises (plan : ThreadPlan) (first : OpId) : Mode → Prop
  | .static => ∀ s ∈ plan.steps, s.action ≠ .initPhase
  | .dynamic => ∃ rest, plan.steps = ⟨first, .before, 0, .initPhase⟩ :: rest ∧
      ∀ s ∈ rest, s.action ≠ .initPhase

namespace Plan

open BlockStarts

variable {cx : Analysis} {pt : PhaseTracker} {t : ThreadId} {first : OpId} {r : BlockStart}

def Opens (pt : PhaseTracker) (r : BlockStart) : Prop :=
  pt.mode = .dynamic ∧ r.kind = .loopBreak ∧ r.id = 0

theorem requestSteps_of_opens (cx : Analysis) (h : Opens pt r) :
    requestSteps cx pt r = [⟨r.op, .before, 0, .initPhase⟩] := by
  obtain ⟨hmode, hkind, hid⟩ := h
  simp [requestSteps, actions, hmode, hkind, hid]

theorem ne_initPhase_of_not_opens (h : ¬ Opens pt r) {s : PlanStep}
    (hs : s ∈ requestSteps cx pt r) : s.action ≠ .initPhase := by
  obtain ⟨a, ha, rfl⟩ := List.mem_map.mp hs
  unfold actions at ha
  unfold Opens at h
  intro hinit
  split at ha
  · split at ha <;> simp_all
  · next hkind hmode =>
    rw [if_neg fun hid => h ⟨hmode, hkind, hid⟩] at ha
    rcases List.mem_pair.mp ha with rfl | rfl <;> cases hinit
  all_goals simp_all

theorem ofThread_initialises (cx : Analysis) (h : InSequence first (pt.requests.ofThread t)) :
    (ofThread cx pt t).Initialises first pt.mode := by
  obtain ⟨r, rest, hrequests, hop, hid, hrest⟩ := h.cases
  have hothers : ∀ r' ∈ rest, ∀ s ∈ requestSteps cx pt r', s.action ≠ .initPhase := by
    intro r' hr' s hs
    exact ne_initPhase_of_not_opens (fun hopens => hrest r' hr' hopens.2.2) hs
  unfold ofThread
  simp only [hrequests, List.flatMap_cons]
  by_cases hopens : Opens pt r
  · have hsteps := requestSteps_of_opens cx hopens
    rw [hopens.1]
    refine ⟨rest.flatMap (requestSteps cx pt), ?_, ?_⟩
    · simp [initSteps, hopens.1, hsteps, hop]
    · intro s hs
      obtain ⟨r', hr', hs⟩ := List.mem_flatMap.mp hs
      exact hothers r' hr' s hs
  · have hnone : ∀ s ∈ requestSteps cx pt r ++ rest.flatMap (requestSteps cx pt),
        s.action ≠ .initPhase := by
      intro s hs
      rcases List.mem_append.mp hs with hs | hs
      · exact ne_initPhase_of_not_opens hopens hs
      · obtain ⟨r', hr', hs⟩ := List.mem_flatMap.mp hs
        exact hothers r' hr' s hs
    have hany : (requestSteps cx pt r ++ rest.flatMap (requestSteps cx pt)).any
        (fun s => s.action = .initPhase) = false :=
      List.any_eq_false.mpr fun s hs => by simpa using hnone s hs
    cases hmode : pt.mode with
    | static =>
      simp only [initSteps, hmode, List.nil_append]
      exact hnone
    | dynamic =>
      refine ⟨_, ?_, hnone⟩
      simp [initSteps, hmode, hany, hop, hid]

end Plan

open PhaseTracker BlockStarts in
/-- After a run and any number of further passes, the requests of each thread are numbered without
gaps, at operations that differ, from that at its first operation on; and its plan initialises the
phase variable there. -/
theorem requests_are_numbered_from_first_operation {cx : Analysis} {mode : Mode}
    {pt pt₁ pt' : PhaseTracker} {n : Nat} (hcreate : (create cx mode).result = .ok pt)
    (hrun : (run cx pt).result = .ok (pt₁, n))
    (hreran : Relation.ReflTransGen (Reran cx) pt₁ pt') :
    (Plan.build cx pt').threads.map (·.thread) = cx.threads.ids ∧
      ∀ plan ∈ (Plan.build cx pt').threads, ∃ first,
        (cx.prog.firstPoint (cx.threads.get plan.thread).proc).op? cx.prog = some first ∧
        InSequence first (pt'.requests.ofThread plan.thread) ∧
        (∀ r ∈ pt'.requests.ofThread plan.thread, r.id = 0 ↔ r.op = first) ∧
        plan.Initialises first mode := by
  obtain ⟨checks, rfl⟩ := create_ok hcreate
  obtain ⟨hmode, hnumbered⟩ := reran_sequenced hrun hreran fun _ => .inl rfl
  constructor
  · rw [Plan.build, List.map_map]
    exact List.map_id _
  · intro plan hplan
    obtain ⟨t, ht, rfl⟩ := List.mem_map.mp hplan
    obtain ⟨first, hfirst, hseq⟩ := hnumbered t ht
    refine ⟨first, hfirst, hseq, fun r hr => hseq.zero_iff hr, ?_⟩
    have hinit := Plan.ofThread_initialises cx hseq
    rwa [hmode] at hinit

namespace PhaseTracker

/-- The tracker in dynamic mode after a run over the racy threads. -/
def racyRun : PhaseTracker × Nat :=
  (run Reduction.racy.analysis { mode := .dynamic, conflictChecks := true }).result.toOption.getD
    default

def racyRerun : PhaseTracker × Nat :=
  (rerun Reduction.racy.analysis racyRun.1).result.toOption.getD default

end PhaseTracker

open PhaseTracker BlockStarts in
/-- The first operation of the racy thread is a left mover, so its request is strengthened. -/
theorem strengthened_first_request_is_numbered_zero :
    (run Reduction.racy.analysis { mode := .dynamic, conflictChecks := true }).result =
        .ok racyRun ∧
      Reran Reduction.racy.analysis racyRun.1 racyRerun.1 ∧
      (racyRerun.1.requests.ofThread 0).head? = some ⟨0, .phaseShift, 0, .after, []⟩ ∧
      InSequence 0 (racyRerun.1.requests.ofThread 0) ∧
      (Plan.ofThread Reduction.racy.analysis racyRerun.1 0).Initialises 0 .dynamic := by
  have hcreate : (create Reduction.racy.analysis .dynamic).result =
      .ok { mode := .dynamic, conflictChecks := true } := by decide +kernel
  have hrun : (run Reduction.racy.analysis { mode := .dynamic, conflictChecks := true }).result =
      .ok racyRun := Checked.ok_of_toOption (by decide +kernel)
  have hreran : Reran Reduction.racy.analysis racyRun.1 racyRerun.1 :=
    ⟨racyRerun.2, Checked.ok_of_toOption (by decide +kernel)⟩
  obtain ⟨-, hplans⟩ :=
    requests_are_numbered_from_first_operation hcreate hrun (.single hreran)
  have hplan : Plan.ofThread Reduction.racy.analysis racyRerun.1 0 ∈
      (Plan.build Reduction.racy.analysis racyRerun.1).threads := by decide +kernel
  obtain ⟨first, hfirst, hseq, -, hinit⟩ := hplans _ hplan
  obtain rfl : 0 = first := Option.some.inj ((by decide +kernel : _ = some 0).symm.trans hfirst)
  exact ⟨hrun, hreran, by decide +kernel, hseq, hinit⟩

end YieldPlan
