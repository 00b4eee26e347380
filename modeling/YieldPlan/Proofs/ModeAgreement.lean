import YieldPlan.Proofs.PhaseCoverage
import YieldPlan.Proofs.WalkAgreement

/-! The areas of a walk do not depend on the mode, so the walks of a thread in both modes are in
step, and they file at the same operations. Only the shift of a phase is filed in dynamic mode
alone. At one operation the strongest request wins in both modes, and what answers request by
request answers the strongest request. -/

namespace YieldPlan

namespace BlockKind

def rank : Option BlockKind → Nat
  | none => 0
  | some kind => kind.strength + 1

def stronger (kind old : Option BlockKind) : Option BlockKind :=
  if rank old < rank kind then kind else old

theorem stronger_cases (kind old : Option BlockKind) :
    stronger kind old = kind ∨ stronger kind old = old := by
  unfold stronger
  split
  · exact .inl rfl
  · exact .inr rfl

theorem rank_stronger (kind old : Option BlockKind) :
    rank kind ≤ rank (stronger kind old) ∧ rank old ≤ rank (stronger kind old) := by
  unfold stronger
  split <;> omega

theorem stronger_again (kind old : Option BlockKind) :
    stronger kind (stronger kind old) = stronger kind old := by
  rw [stronger, if_neg (Nat.not_lt.mpr (rank_stronger kind old).1)]

theorem stronger_none (old : Option BlockKind) : stronger none old = old := if_neg (Nat.not_lt_zero _)

theorem eq_static_of_rank {kind : Option BlockKind} (h : rank (some .static) ≤ rank kind) :
    kind = some .static := by
  rcases kind with _ | kind
  · simp [rank] at h
  · cases kind <;> simp_all [rank, strength]

theorem eq_yield_of_rank {kind : Option BlockKind} (h : rank (some .phaseDynamic) ≤ rank kind)
    (hs : kind ≠ some .static) : kind = some .phaseDynamic ∨ kind = some .dynamicConflict := by
  rcases kind with _ | kind
  · simp [rank] at h
  · cases kind <;> simp_all [rank, strength]

/-- The kind at an operation in dynamic mode answers the one in static mode. -/
structure Answers (static dynamic : Option BlockKind) : Prop where
  requested : static ≠ none → dynamic ≠ none
  yields : static = some .static → dynamic = some .phaseDynamic ∨ dynamic = some .dynamicConflict
  conflict : dynamic = some .dynamicConflict → static = some .static
  guarded : dynamic ≠ some .static

variable {s d s' d' : Option BlockKind}

theorem Answers.stronger (h : Answers s d) (h' : Answers s' d') :
    Answers (stronger s' s) (stronger d' d) := by
  have hs := stronger_cases s' s
  have hd := stronger_cases d' d
  obtain ⟨hle', hle⟩ := rank_stronger d' d
  have hguarded : BlockKind.stronger d' d ≠ some .static := by
    rcases hd with hd | hd
    · rw [hd]
      exact h'.guarded
    · rw [hd]
      exact h.guarded
  refine ⟨fun hne hnone => ?_, fun hstatic => ?_, fun hconflict => ?_, hguarded⟩
  · rw [hnone] at hle hle'
    have hd : d = none := by cases d <;> simp_all [rank]
    have hd' : d' = none := by cases d' <;> simp_all [rank]
    rcases hs with hs | hs
    · exact h'.requested (hs ▸ hne) hd'
    · exact h.requested (hs ▸ hne) hd
  · refine eq_yield_of_rank ?_ hguarded
    have hyields : ∀ {k}, k = some BlockKind.phaseDynamic ∨ k = some .dynamicConflict →
        rank (some .phaseDynamic) ≤ rank k := by
      rintro k (rfl | rfl) <;> decide
    rcases hs with hs | hs
    · exact Nat.le_trans (hyields (h'.yields (hs ▸ hstatic))) hle'
    · exact Nat.le_trans (hyields (h.yields (hs ▸ hstatic))) hle
  · refine eq_static_of_rank ?_
    obtain ⟨hge', hge⟩ := rank_stronger s' s
    rcases hd with hd | hd
    · exact h'.conflict (hd ▸ hconflict) ▸ hge'
    · exact h.conflict (hd ▸ hconflict) ▸ hge

theorem answers_none : Answers none none where
  requested h := absurd rfl h
  yields h := by cases h
  conflict h := by cases h
  guarded h := by cases h

end BlockKind

namespace BlockStarts

open BlockKind (stronger)

def kindAt (s : BlockStarts) (t : ThreadId) (o : OpId) : Option BlockKind :=
  (s.get? t o).map (·.kind)

theorem kindAt_file (s : BlockStarts) (t u : ThreadId) (o x : OpId) (kind : BlockKind)
    (placement : Placement) (sources : List OpId) :
    (s.file t o kind placement sources).1.kindAt u x =
      if u = t ∧ x = o then stronger (some kind) (s.kindAt u x) else s.kindAt u x := by
  rw [kindAt, get?_file]
  split
  · next heq =>
    obtain ⟨rfl, rfl⟩ := heq
    unfold kindAt after
    cases s.get? u x with
    | none => simp [stronger, BlockKind.rank]
    | some old =>
      simp only [Option.map_some, stronger, BlockKind.rank, Nat.add_lt_add_iff_right, merge]
      split
      · rfl
      · split <;> rfl
  · rfl

end BlockStarts

theorem transition_answers (checks checks' : Bool) (m : Mover) (a : Area) :
    BlockKind.Answers ((transition .static checks m a).2.map (·.1))
      ((transition .dynamic checks' m a).2.map (·.1)) := by
  cases m <;> cases a <;> cases checks' <;> constructor <;>
    simp [transition, Area.mayBePost]

namespace PhaseTracker

open YieldPlan.Action (Agree Agreed agree_pure agree_check agree_modify agree_get)
open BlockKind (stronger Answers)

variable {cx : Analysis} {pt pt' : PhaseTracker} {t : ThreadId} {s s' d d' : Tracking}

/-- Walks of a thread in static and in dynamic mode that have got equally far. -/
structure Tracking.Twins (s d : Tracking) : Prop where
  opAreas : d.opAreas = s.opAreas
  strayEnds : d.strayEnds = s.strayEnds
  answers : ∀ u x, Answers (s.requests.kindAt u x) (d.requests.kindAt u x)

structure Tracking.Filed (t : ThreadId) (ops : List OpId) (kind : Option BlockKind)
    (s s' : Tracking) : Prop where
  opAreas : s'.opAreas = s.opAreas
  strayEnds : s'.strayEnds = s.strayEnds
  kindAt : ∀ u x, s'.requests.kindAt u x =
    if u = t ∧ x ∈ ops then stronger kind (s.requests.kindAt u x) else s.requests.kindAt u x

theorem Tracking.Twins.filed (h : s.Twins d) {ops : List OpId} {kind kind' : Option BlockKind}
    (hs : Tracking.Filed t ops kind s s') (hd : Tracking.Filed t ops kind' d d')
    (hk : Answers kind kind') : s'.Twins d' where
  opAreas := by rw [hs.opAreas, hd.opAreas, h.opAreas]
  strayEnds := by rw [hs.strayEnds, hd.strayEnds, h.strayEnds]
  answers u x := by
    rw [hs.kindAt, hd.kindAt]
    split
    · exact (h.answers u x).stronger hk
    · exact h.answers u x

theorem filed_none (ops : List OpId) (s : Tracking) : Tracking.Filed t ops none s s where
  opAreas := rfl
  strayEnds := rfl
  kindAt u x := by simp [BlockKind.stronger_none]

section Filing

variable (cx pt t)

theorem file_filed (o : OpId) (kind : BlockKind) (placement : Placement) (sources : List OpId)
    (s : Tracking) :
    ∃ s', file cx t o kind placement sources s = .ok () s' ∧
      Tracking.Filed t [o] (some kind) s s' := by
  have hs : ∃ s' src, file cx t o kind placement sources s = .ok () s' ∧
      s'.opAreas = s.opAreas ∧ s'.strayEnds = s.strayEnds ∧
      s'.requests = (s.requests.file t o kind placement src).1 := ⟨_, _, rfl, rfl, rfl, rfl⟩
  obtain ⟨s', src, hfile, ho, he, hr⟩ := hs
  refine ⟨s', hfile, ho, he, fun u x => ?_⟩
  rw [hr, BlockStarts.kindAt_file]
  simp

theorem fileAll_filed (kind : BlockKind) (placement : Placement) (sources : List OpId)
    (ops : List OpId) (s : Tracking) :
    ∃ s', fileAll cx t kind placement sources ops s = .ok () s' ∧
      Tracking.Filed t ops (some kind) s s' := by
  induction ops generalizing s with
  | nil => exact ⟨s, rfl, rfl, rfl, fun u x => by simp⟩
  | cons o rest ih =>
    obtain ⟨s₁, hfile, ho, he, hk⟩ := file_filed cx t o kind placement sources s
    obtain ⟨s₂, hall, ho', he', hk'⟩ := ih s₁
    refine ⟨s₂, Action.bind_ok.mpr ⟨(), s₁, hfile, hall⟩, ho'.trans ho, he'.trans he, fun u x => ?_⟩
    rw [hk', hk]
    by_cases hu : u = t <;> by_cases hx : x = o <;> by_cases hrest : x ∈ rest <;>
      simp [hu, hx, hrest, BlockKind.stronger_again]

theorem visitMover_filed (o : OpId) (area : Area) (s : Tracking) :
    ∃ s', visitMover cx pt t o area s =
        .ok (.continue ((cx.movability.movable cx.prog o).phase area)) s' ∧
      Tracking.Filed t [o] ((transition pt.mode pt.conflictChecks
        (cx.movability.movable cx.prog o) area).2.map (·.1)) s s' := by
  have hfst := transition_fst pt.mode pt.conflictChecks (cx.movability.movable cx.prog o) area
  unfold visitMover
  cases hd : transition pt.mode pt.conflictChecks (cx.movability.movable cx.prog o) area with
  | mk next demand =>
    simp only [hd] at hfst
    subst hfst
    cases demand with
    | none => exact ⟨s, rfl, filed_none _ s⟩
    | some d =>
      obtain ⟨s', hfile, hfiled⟩ := file_filed cx t o d.1 d.2 (cx.conflicts.conflictsWith o) s
      exact ⟨s', Action.bind_ok.mpr ⟨(), s', hfile, rfl⟩, hfiled⟩

end Filing

theorem visitRegion_filed (t : ThreadId) {o : OpId} (area : Area) {s s₁ : Tracking}
    {region : AtomicRegion} (hregion : regionOf cx pt o s = .ok region s₁) :
    ∃ s', visitRegion cx pt t o area s = .ok (.jump (region.kind.phase area) region.exits) s' ∧
      Tracking.Filed t region.ends
        ((transition pt.mode pt.conflictChecks region.kind area).2.map (·.1)) s₁ s' := by
  have hfst := transition_fst pt.mode pt.conflictChecks region.kind area
  cases hd : transition pt.mode pt.conflictChecks region.kind area with
  | mk next demand =>
    simp only [hd] at hfst
    subst hfst
    cases demand with
    | none =>
      refine ⟨s₁, Action.bind_ok.mpr ⟨region, s₁, hregion, ?_⟩, filed_none _ s₁⟩
      simp only [hd]
      rfl
    | some d =>
      obtain ⟨s', hfile, hfiled⟩ :=
        fileAll_filed cx t d.1 d.2 (regionSources cx region) region.ends s₁
      refine ⟨s', Action.bind_ok.mpr ⟨region, s₁, hregion, ?_⟩, hfiled⟩
      simp only [hd]
      exact Action.bind_ok.mpr ⟨(), s', hfile, rfl⟩

structure Twins (pt pt' : PhaseTracker) : Prop where
  static : pt.mode = .static
  dynamic : pt'.mode = .dynamic
  regions : pt'.regions = pt.regions
  inRegion : pt'.inRegion = pt.inRegion
  areas : pt'.areas = pt.areas
  view : (view pt).Twins (view pt')

theorem regionOf_agree (cx : Analysis) (h : Twins pt pt') (o : OpId) :
    Agree Tracking.Twins (regionOf cx pt o) (regionOf cx pt' o) := by
  unfold regionOf
  rw [h.regions]
  cases pt.regions.get? o with
  | some region => exact agree_pure region
  | none =>
    refine Agree.bind (agree_modify fun s d hsd => ?_) fun _ => agree_check _
    exact ⟨hsd.opAreas, hsd.strayEnds, hsd.answers⟩

theorem visitMover_agree (h : Twins pt pt') (o : OpId) (area : Area) :
    Agree Tracking.Twins (visitMover cx pt t o area) (visitMover cx pt' t o area) := by
  intro s d hsd
  obtain ⟨s', hs, hfiled⟩ := visitMover_filed cx pt t o area s
  obtain ⟨d', hd, hfiled'⟩ := visitMover_filed cx pt' t o area d
  rw [hs, hd]
  rw [h.static] at hfiled
  rw [h.dynamic] at hfiled'
  exact .ok _ (hsd.filed hfiled hfiled' (transition_answers _ _ _ _))

theorem visitRegion_agree (h : Twins pt pt') (o : OpId) (area : Area) :
    Agree Tracking.Twins (visitRegion cx pt t o area) (visitRegion cx pt' t o area) := by
  intro s d hsd
  have hregion := regionOf_agree cx h o s d hsd
  cases hs : regionOf cx pt o s <;> cases hd : regionOf cx pt' o d <;> rw [hs, hd] at hregion <;>
    cases hregion
  · next region s₁ d₁ hsd₁ =>
    obtain ⟨s', hs', hfiled⟩ := visitRegion_filed t area hs
    obtain ⟨d', hd', hfiled'⟩ := visitRegion_filed t area hd
    rw [hs', hd']
    rw [h.static] at hfiled
    rw [h.dynamic] at hfiled'
    exact .ok _ (hsd₁.filed hfiled hfiled' (transition_answers _ _ _ _))
  · next e s₁ d₁ =>
    have herror : ∀ {pt : PhaseTracker} {s s₁}, regionOf cx pt o s = .error e s₁ →
        visitRegion cx pt t o area s = .error e s₁ := by
      intro pt s s₁ hs
      show EStateM.bind (regionOf cx pt o) _ s = _
      unfold EStateM.bind
      rw [hs]
    rw [herror hs, herror hd]
    exact .error e

theorem visitStrayEnd_agree (o : OpId) (area : Area) :
    Agree Tracking.Twins (visitStrayEnd cx o area) (visitStrayEnd cx o area) := by
  refine agree_get fun s d hsd => ?_
  rw [hsd.strayEnds]
  split
  · exact .ok _ ⟨hsd.opAreas, rfl, hsd.answers⟩
  · exact .ok _ hsd

theorem visit_agree (h : Twins pt pt') (o : OpId) (area : Area) :
    Agree Tracking.Twins (visit cx pt t o area) (visit cx pt' t o area) := by
  refine Agree.bind (agree_modify fun s d hsd => ?_) fun _ => ?_
  · exact ⟨by simp only [recordArea, hsd.opAreas], hsd.strayEnds, hsd.answers⟩
  · split
    · exact agree_pure _
    · exact visitRegion_agree h o area
    · exact visitStrayEnd_agree o area
    · exact visitMover_agree h o area

theorem revisitKind_answers (h : Twins pt pt') (edge : Edge) :
    Answers (some (revisitKind pt edge)) (some (revisitKind pt' edge)) := by
  unfold revisitKind
  rw [h.static, h.dynamic]
  cases edge <;> constructor <;> simp

theorem file_agree {o : OpId} {kind kind' : BlockKind} {placement : Placement}
    {sources : List OpId} (hk : Answers (some kind) (some kind')) :
    Agree Tracking.Twins (file cx t o kind placement sources)
      (file cx t o kind' placement sources) := by
  intro s d hsd
  obtain ⟨s', hs, hfiled⟩ := file_filed cx t o kind placement sources s
  obtain ⟨d', hd, hfiled'⟩ := file_filed cx t o kind' placement sources d
  rw [hs, hd]
  exact .ok () (hsd.filed hfiled hfiled' hk)

theorem processor_agree (h : Twins pt pt') :
    Processor.Agree Tracking.Twins (processor cx pt t) (processor cx pt' t) where
  visit o area := visit_agree h o area
  afterCall _ callee _ := agree_pure [Point.entry (cx.prog.entryBlock callee)]
  afterReturn p := by
    have heq : afterReturn cx pt t p = afterReturn cx pt' t p := by
      simp only [afterReturn, h.inRegion]
    show Agree _ (pure (afterReturn cx pt t p)) (pure (afterReturn cx pt' t p))
    rw [heq]
    exact agree_pure _
  revisit p _ incoming edge := by
    show Agree _ (revisit cx pt t p incoming edge) (revisit cx pt' t p incoming edge)
    unfold revisit
    split
    · exact (agree_check _).bind fun o => file_agree (revisitKind_answers h edge)
    · exact agree_pure ()

theorem answers_loopBreak : Answers (some .loopBreak) (some .loopBreak) := by
  constructor <;> simp

theorem walkThread_agree (cx : Analysis) (t : ThreadId) (h : Twins pt pt') :
    Agree (Walk.Alike Tracking.Twins) (walkThread cx pt t) (walkThread cx pt' t) := by
  refine (agree_check _).bind fun o => ?_
  exact (Walk.lift_agree (file_agree answers_loopBreak)).bind fun _ =>
    Walk.walk_agree (processor_agree h) _ _

end PhaseTracker

inductive Checked.Agreed {α β : Type} (R : α → β → Prop) : Checked α → Checked β → Prop where
  | ok {a b} : R a b → Agreed R (.ok a) (.ok b)
  | error (e : Failure) : Agreed R (.error e) (.error e)

theorem Checked.Agreed.bind {α β γ δ : Type} {R : α → β → Prop} {S : γ → δ → Prop} {x : Checked α}
    {y : Checked β} {f : α → Checked γ} {g : β → Checked δ} (h : Agreed R x y)
    (hf : ∀ a b, R a b → Agreed S (f a) (g b)) : Agreed S (x >>= f) (y >>= g) := by
  cases h with
  | ok hab => exact hf _ _ hab
  | error e => exact .error e

theorem Checked.agreed_self {α : Type} (x : Checked α) : Agreed Eq x x := by
  cases x with
  | ok a => exact .ok rfl
  | error e => exact .error e

namespace PhaseTracker

open Checked (Agreed agreed_self)

variable {cx : Analysis} {pt pt' : PhaseTracker}

abbrev CountedTwins (x y : PhaseTracker × Nat) : Prop := Twins x.1 y.1

theorem addThread_agree (h : Twins pt pt') (t : ThreadId) :
    Agreed CountedTwins (addThread cx pt t).result (addThread cx pt' t).result := by
  have hstart : Walk.Alike Tracking.Twins (start pt t) (start pt' t) := by
    unfold start
    rw [h.areas]
    exact ⟨⟨h.view.opAreas, h.view.strayEnds, h.view.answers⟩⟩
  have hwalk := walkThread_agree cx t h _ _ hstart
  unfold addThread
  cases hs : walkThread cx pt t (start pt t) <;> cases hd : walkThread cx pt' t (start pt' t) <;>
    rw [hs, hd] at hwalk <;> cases hwalk
  · next halike =>
    obtain ⟨hst⟩ := halike
    refine .ok ⟨h.static, h.dynamic, h.regions, h.inRegion, ?_, ?_⟩
    · simp only [absorb, h.areas]
    · exact ⟨hst.opAreas, hst.strayEnds, hst.answers⟩
  · exact .error _

theorem addThreads_agree (h : Twins pt pt') (ts : List ThreadId) :
    Agreed CountedTwins (addThreads cx pt ts).result (addThreads cx pt' ts).result := by
  induction ts generalizing pt pt' with
  | nil => exact .ok h
  | cons t ts ih =>
    simp only [addThreads, Traced.result_bind]
    refine (addThread_agree h t).bind fun x y hxy => ?_
    exact (ih hxy).bind fun _ _ h => .ok h

theorem addRegions_agree (h : Twins pt pt') (os : List OpId) :
    Agreed Twins (addRegions cx pt os).result (addRegions cx pt' os).result := by
  induction os generalizing pt pt' with
  | nil => exact .ok h
  | cons o os ih =>
    unfold addRegions
    rw [h.regions]
    split
    · exact ih h
    · simp only [Traced.result_bind]
      refine (agreed_self (scanRegion cx o).result).bind ?_
      rintro region _ rfl
      exact ih ⟨h.static, h.dynamic, rfl, by simp only [h.inRegion], h.areas, h.view⟩

theorem run_agree (h : Twins pt pt') :
    Agreed CountedTwins (run cx pt).result (run cx pt').result := by
  simp only [run, rerun, Traced.result_bind, Traced.result_log]
  refine (addRegions_agree h _).bind fun pt pt' h => ?_
  refine (addThreads_agree h _).bind fun x y h => ?_
  exact .ok h

theorem create_agree (cx : Analysis) :
    Agreed Twins (create cx .static).result (create cx .dynamic).result := by
  simp only [create, Traced.result_bind]
  refine (agreed_self _).bind ?_
  rintro options _ rfl
  refine (agreed_self _).bind ?_
  rintro value _ rfl
  refine (agreed_self _).bind ?_
  rintro off _ rfl
  exact .ok ⟨rfl, rfl, rfl, rfl, rfl, rfl, rfl, fun _ _ => BlockKind.answers_none⟩

end PhaseTracker

theorem Program.reduceWith_agree (prog : Program) (mayAlias : AliasOracle) :
    Checked.Agreed (fun s d => d.analysis = s.analysis ∧ PhaseTracker.Twins s.tracker d.tracker)
      (prog.reduceWith mayAlias .static).result (prog.reduceWith mayAlias .dynamic).result := by
  simp only [Program.reduceWith, Traced.result_bind]
  refine (Checked.agreed_self _).bind ?_
  rintro cx _ rfl
  refine (PhaseTracker.create_agree cx).bind fun pt pt' h => ?_
  refine (PhaseTracker.run_agree h).bind fun x y hxy => ?_
  exact .ok ⟨rfl, hxy⟩

/-- Static and dynamic mode fail alike. If they do not fail, they find the same areas, and at each
operation of each thread: what is requested in static mode is requested in dynamic mode, what always
yields in static mode yields on a condition in dynamic mode, and what checks for conflicts in dynamic
mode always yields in static mode. -/
theorem modes_agree (prog : Program) (mayAlias : AliasOracle) :
    (∃ e, (prog.reduceWith mayAlias .static).result = .error e ∧
      (prog.reduceWith mayAlias .dynamic).result = .error e) ∨
    ∃ static dynamic, (prog.reduceWith mayAlias .static).result = .ok static ∧
      (prog.reduceWith mayAlias .dynamic).result = .ok dynamic ∧
      dynamic.tracker.areas = static.tracker.areas ∧
      dynamic.tracker.opAreas = static.tracker.opAreas ∧
      ∀ t o,
        (∀ r, static.tracker.requests.get? t o = some r →
          ∃ r', dynamic.tracker.requests.get? t o = some r' ∧
            (r.kind = .static → r'.kind = .phaseDynamic ∨ r'.kind = .dynamicConflict)) ∧
        ∀ r', dynamic.tracker.requests.get? t o = some r' → r'.kind = .dynamicConflict →
          ∃ r, static.tracker.requests.get? t o = some r ∧ r.kind = .static := by
  have hagree := prog.reduceWith_agree mayAlias
  cases hs : (prog.reduceWith mayAlias .static).result <;>
    cases hd : (prog.reduceWith mayAlias .dynamic).result <;> rw [hs, hd] at hagree <;>
    cases hagree
  · exact .inl ⟨_, rfl, rfl⟩
  · next static dynamic h =>
    refine .inr ⟨static, dynamic, rfl, rfl, h.2.areas, h.2.view.opAreas, fun t o => ?_⟩
    have hkinds : BlockKind.Answers (static.tracker.requests.kindAt t o)
        (dynamic.tracker.requests.kindAt t o) := h.2.view.answers t o
    constructor
    · intro r hr
      simp only [BlockStarts.kindAt, hr, Option.map_some] at hkinds
      obtain ⟨r', hr'⟩ := Option.ne_none_iff_exists'.mp fun hnone =>
        hkinds.requested (by simp) (Option.map_eq_none_iff.mpr hnone)
      refine ⟨r', hr', fun hk => ?_⟩
      simpa [hr'] using hkinds.yields (congrArg some hk)
    · intro r' hr' hk
      simp only [BlockStarts.kindAt, hr', Option.map_some] at hkinds
      exact Option.map_eq_some_iff.mp (hkinds.conflict (congrArg some hk))

/-- The second write of a racy thread always yields in static mode, and on a condition in dynamic
mode. -/
theorem racy_write_yields_in_both_modes :
    (Program.racy.reduce .static).result = .ok .racy ∧
      (∃ r, Reduction.racy.tracker.requests.get? 0 3 = some r ∧ r.kind = .static) ∧
      ∃ dynamic r', (Program.racy.reduce .dynamic).result = .ok dynamic ∧
        dynamic.tracker.requests.get? 0 3 = some r' ∧
        (r'.kind = .phaseDynamic ∨ r'.kind = .dynamicConflict) := by
  have hok : (Program.racy.reduceWith locationAliasing .static).result = .ok .racy :=
    Program.reduce_racy
  obtain ⟨r, hr, hk⟩ : ∃ r, Reduction.racy.tracker.requests.get? 0 3 = some r ∧ r.kind = .static :=
    ⟨⟨3, .static, 1, .after, []⟩, by decide +kernel, rfl⟩
  refine ⟨hok, ⟨r, hr, hk⟩, ?_⟩
  rcases modes_agree Program.racy locationAliasing with ⟨e, he, -⟩ | ⟨s, d, hs, hd, -, -, hall⟩
  · cases hok.symm.trans he
  · cases hok.symm.trans hs
    obtain ⟨r', hr', hyields⟩ := (hall 0 3).1 r hr
    exact ⟨d, r', hd, hr', hyields hk⟩

end YieldPlan
