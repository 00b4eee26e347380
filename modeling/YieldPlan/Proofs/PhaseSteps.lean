import YieldPlan.PhaseTracker
import YieldPlan.Proofs.Requests
import YieldPlan.Proofs.WalkCoverage

/-! The phase of a thread along a path, the requests that it asks for, and the proof that a visit of
the tracker records both. A begin marker stands for the whole region that it opens. -/

namespace YieldPlan

def Mover.phase : Mover → Area → Area
  | .both, c => c
  | .right, _ => .pre
  | .left, _ | .none, _ => .post

theorem Mover.phase_mono (m : Mover) {a b : Area} (h : a ≤ b) : m.phase a ≤ m.phase b := by
  cases m with
  | both => exact h
  | _ => exact Area.le_refl _

theorem transition_fst (mode : Mode) (checks : Bool) (m : Mover) (a : Area) :
    (transition mode checks m a).1 = m.phase a := by
  cases m <;> cases mode <;> rfl

theorem placement_of_transition {mode : Mode} {checks : Bool} {m : Mover} {a : Area}
    {kind : BlockKind} {placement : Placement}
    (h : (transition mode checks m a).2 = some (kind, placement)) : placement = .after := by
  cases m <;> cases mode <;> cases a <;> cases checks <;>
    simp_all [transition, Area.mayBePost]

/-- A larger area asks for at least as much. -/
theorem transition_mono {mode : Mode} {checks : Bool} {m : Mover} {a b : Area} (h : a ≤ b)
    {kind : BlockKind} {placement : Placement}
    (hk : (transition mode checks m a).2 = some (kind, placement)) :
    ∃ kind', (transition mode checks m b).2 = some (kind', placement) ∧
      kind.strength ≤ kind'.strength := by
  have hab : a = b ∨ b = .top := by
    cases a <;> cases b <;> first | exact .inl rfl | exact .inr rfl | exact absurd h (by decide)
  rcases hab with rfl | rfl
  · exact ⟨kind, hk, Nat.le_refl _⟩
  · cases m <;> cases mode <;> cases a <;> cases checks <;>
      simp_all [transition, Area.mayBePost] <;> (obtain ⟨rfl, -⟩ := hk; decide)

namespace PhaseTracker

variable (cx : Analysis) (pt : PhaseTracker) (t : ThreadId)

def regionAt (o : OpId) : Checked AtomicRegion :=
  match pt.regions.get? o with
  | some region => .ok region
  | none => AtomicRegion.scan cx.prog cx.movability o

def opens? (o : OpId) : Option AtomicRegion :=
  if cx.prog.kind o = .library .atomicBegin then (regionAt cx pt o).toOption else none

/-- How a thread moves at an operation; a region moves as a whole. -/
def moverAt (o : OpId) : Mover :=
  match opens? cx pt o with
  | some region => region.kind
  | none => cx.movability.movable cx.prog o

/-- The phase of a thread after an operation or region. -/
def phaseAfter (o : OpId) (c : Area) : Area :=
  if cx.prog.kind o = .library .yield then .pre else (moverAt cx pt o).phase c

/-- Where the request of an operation or region goes. -/
def requestOps (o : OpId) : List OpId :=
  match opens? cx pt o with
  | some region => region.ends
  | none => [o]

/-- The request that an operation or region asks for in a phase. -/
def demandAt (o : OpId) (c : Area) : Demand :=
  (transition pt.mode pt.conflictChecks (moverAt cx pt o) c).2

theorem phaseAfter_mono (o : OpId) {a b : Area} (h : a ≤ b) :
    phaseAfter cx pt o a ≤ phaseAfter cx pt o b := by
  unfold phaseAfter
  split
  · exact Area.le_refl _
  · exact Mover.phase_mono _ h

theorem demandAt_mono {o : OpId} {a b : Area} (h : a ≤ b) {kind : BlockKind}
    {placement : Placement} (hk : demandAt cx pt o a = some (kind, placement)) :
    ∃ kind', demandAt cx pt o b = some (kind', placement) ∧ kind.strength ≤ kind'.strength :=
  transition_mono h hk

def effects : Effects where
  visit o a :=
    match opens? cx pt o with
    | some region => .jump (phaseAfter cx pt o a) region.exits
    | none => .continue (phaseAfter cx pt o a)
  afterCall _ callee _ := [Point.entry (cx.prog.entryBlock callee)]
  afterReturn p := afterReturn cx pt t p

variable {cx pt t}

/-- Areas and requests only get larger, and what always yields does so after its operation. -/
structure Tracking.Grows (s s' : Tracking) : Prop where
  opAreas : ∀ o a, s.opAreas.get? o = some a → ∃ b, s'.opAreas.get? o = some b ∧ a ≤ b
  requests : s.requests.Grows s'.requests
  static : s.requests.StaticAfter → s'.requests.StaticAfter

theorem Tracking.Grows.refl (s : Tracking) : s.Grows s :=
  ⟨fun _ a h => ⟨a, h, Area.le_refl a⟩, .refl _, id⟩

theorem Tracking.Grows.trans {a b c : Tracking} (h : a.Grows b) (k : b.Grows c) : a.Grows c where
  opAreas o x hx := by
    obtain ⟨y, hy, hxy⟩ := h.opAreas o x hx
    obtain ⟨z, hz, hyz⟩ := k.opAreas o y hy
    exact ⟨z, hz, Area.le_trans hxy hyz⟩
  requests := h.requests.trans k.requests
  static := k.static ∘ h.static

theorem Tracking.grows_of_eq {s s' : Tracking} (ho : s'.opAreas = s.opAreas)
    (hr : s'.requests = s.requests) : s.Grows s' := by
  refine ⟨fun o a h => ⟨a, ho ▸ h, Area.le_refl a⟩, ?_, ?_⟩
  · rw [hr]; exact .refl _
  · rw [hr]; exact id

/-- A request of the thread at an operation, of the given strength or more. -/
def Meets (t : ThreadId) (kind : BlockKind) (s : BlockStarts) (o : OpId) : Prop :=
  ∃ r, s.get? t o = some r ∧ kind.strength ≤ r.kind.strength

theorem Meets.grows {kind : BlockKind} {s s' : BlockStarts} {o : OpId} (h : Meets t kind s o)
    (hg : s.Grows s') : Meets t kind s' o := by
  obtain ⟨r, hr, hk⟩ := h
  obtain ⟨r', hr', hle⟩ := hg t o r hr
  exact ⟨r', hr', Nat.le_trans hk hle⟩

theorem file_ok {o : OpId} {kind : BlockKind} {placement : Placement} {sources : List OpId}
    {s s' : Tracking} {u : Unit} (h : file cx t o kind placement sources s = .ok u s')
    (hk : kind = .static → placement = .after) :
    s'.opAreas = s.opAreas ∧ s.Grows s' ∧ Meets t kind s'.requests o := by
  have hs : ∃ src, s'.opAreas = s.opAreas ∧
      s'.requests = (s.requests.file t o kind placement src).1 := by
    cases h
    exact ⟨_, rfl, rfl⟩
  obtain ⟨src, ho, hr⟩ := hs
  refine ⟨ho, ⟨fun x a hx => ⟨a, ho ▸ hx, Area.le_refl a⟩, ?_, ?_⟩, ?_⟩
  · rw [hr]; exact BlockStarts.file_grows _ _ _ _ _ _
  · rw [hr]; exact fun hst => hst.file hk
  · refine ⟨_, ?_, BlockStarts.after_strength s.requests t o kind placement src⟩
    rw [hr, BlockStarts.get?_file, if_pos ⟨rfl, rfl⟩]

theorem fileAll_ok {kind : BlockKind} {placement : Placement} {sources : List OpId}
    {ops : List OpId} {s s' : Tracking} {u : Unit}
    (h : fileAll cx t kind placement sources ops s = .ok u s')
    (hk : kind = .static → placement = .after) :
    s'.opAreas = s.opAreas ∧ s.Grows s' ∧ ∀ o ∈ ops, Meets t kind s'.requests o := by
  induction ops generalizing s with
  | nil =>
    cases h
    exact ⟨rfl, .refl _, by simp⟩
  | cons o rest ih =>
    obtain ⟨_, v, hf, hrest⟩ := Action.bind_ok.mp h
    obtain ⟨ho, hg, hm⟩ := file_ok hf hk
    obtain ⟨ho', hg', hm'⟩ := ih hrest
    refine ⟨ho'.trans ho, hg.trans hg', ?_⟩
    intro x hx
    rcases List.mem_cons.mp hx with rfl | hx
    · exact hm.grows hg'.requests
    · exact hm' x hx

/-- The tracker has noted the visit of an operation in an area. -/
structure Noted (cx : Analysis) (pt : PhaseTracker) (t : ThreadId) (o : OpId) (a : Area)
    (s : Tracking) : Prop where
  area : ∃ b, s.opAreas.get? o = some b ∧ a ≤ b
  requests : ∀ kind placement, demandAt cx pt o a = some (kind, placement) →
    ∀ x ∈ requestOps cx pt o, Meets t kind s.requests x

theorem Noted.grows {o : OpId} {a : Area} {s s' : Tracking} (h : Noted cx pt t o a s)
    (hg : s.Grows s') : Noted cx pt t o a s' where
  area := by
    obtain ⟨b, hb, hab⟩ := h.area
    obtain ⟨c, hc, hbc⟩ := hg.opAreas o b hb
    exact ⟨c, hc, Area.le_trans hab hbc⟩
  requests kind placement hd x hx := (h.requests kind placement hd x hx).grows hg.requests

theorem Noted.mono {o : OpId} {a b : Area} {s : Tracking} (h : Noted cx pt t o b s)
    (hab : a ≤ b) : Noted cx pt t o a s where
  area := by
    obtain ⟨c, hc, hbc⟩ := h.area
    exact ⟨c, hc, Area.le_trans hab hbc⟩
  requests kind placement hd x hx := by
    obtain ⟨kind', hd', hle⟩ := demandAt_mono cx pt hab hd
    obtain ⟨r, hr, hk⟩ := h.requests kind' placement hd' x hx
    exact ⟨r, hr, Nat.le_trans hle hk⟩

theorem recordArea_grows (o : OpId) (a : Area) (s : Tracking) : s.Grows (recordArea o a s) := by
  refine ⟨?_, .refl _, id⟩
  intro x b hb
  by_cases hx : x = o
  · subst hx
    refine ⟨b.join a, ?_, Area.le_join_left b a⟩
    simp [recordArea, Table.get?_put, hb]
  · refine ⟨b, ?_, Area.le_refl b⟩
    simpa [recordArea, Table.get?_put, hx] using hb

theorem recordArea_area (o : OpId) (a : Area) (s : Tracking) :
    ∃ b, (recordArea o a s).opAreas.get? o = some b ∧ a ≤ b := by
  unfold recordArea
  cases s.opAreas.get? o with
  | none => exact ⟨a, by simp [Table.get?_put], Area.le_refl a⟩
  | some r => exact ⟨r.join a, by simp [Table.get?_put], Area.le_join_right r a⟩

theorem scanRegion_result (o : OpId) :
    (scanRegion cx o).result = AtomicRegion.scan cx.prog cx.movability o := by
  simp only [scanRegion, Traced.result_bind, Traced.result_log]
  cases AtomicRegion.scan cx.prog cx.movability o <;> rfl

theorem regionOf_ok {o : OpId} {s s' : Tracking} {region : AtomicRegion}
    (h : regionOf cx pt o s = .ok region s') :
    regionAt cx pt o = .ok region ∧ s'.opAreas = s.opAreas ∧ s'.requests = s.requests := by
  unfold regionOf at h
  unfold regionAt
  cases hr : pt.regions.get? o with
  | some known =>
    simp only [hr] at h
    obtain ⟨rfl, rfl⟩ := Action.pure_ok.mp h
    exact ⟨rfl, rfl, rfl⟩
  | none =>
    simp only [hr] at h
    obtain ⟨_, v, hn, h₁⟩ := Action.bind_ok.mp h
    obtain ⟨hs, rfl⟩ := Action.check_ok.mp h₁
    obtain rfl := Action.modify_ok.mp hn
    exact ⟨(scanRegion_result o).symm.trans hs, rfl, rfl⟩

theorem visitRegion_cases {o : OpId} {a : Area} {s s' : Tracking} {st : Step}
    (h : visitRegion cx pt t o a s = .ok st s') :
    ∃ region v, regionAt cx pt o = .ok region ∧ v.opAreas = s.opAreas ∧ v.requests = s.requests ∧
      st = .jump (region.kind.phase a) region.exits ∧
      ((transition pt.mode pt.conflictChecks region.kind a).2 = none ∧ s' = v ∨
        ∃ kind placement,
          (transition pt.mode pt.conflictChecks region.kind a).2 = some (kind, placement) ∧
          fileAll cx t kind placement (regionSources cx region) region.ends v = .ok () s') := by
  obtain ⟨region, v, hr, h₁⟩ := Action.bind_ok.mp h
  obtain ⟨hat, ho, hq⟩ := regionOf_ok hr
  refine ⟨region, v, hat, ho, hq, ?_⟩
  rw [← transition_fst pt.mode pt.conflictChecks region.kind a]
  cases hd : transition pt.mode pt.conflictChecks region.kind a with
  | mk next demand =>
    simp only [hd] at h₁
    cases demand with
    | none =>
      obtain ⟨rfl, rfl⟩ := Action.pure_ok.mp h₁
      exact ⟨rfl, .inl ⟨rfl, rfl⟩⟩
    | some d =>
      obtain ⟨_, u, hf, h₂⟩ := Action.bind_ok.mp h₁
      obtain ⟨rfl, rfl⟩ := Action.pure_ok.mp h₂
      exact ⟨rfl, .inr ⟨d.1, d.2, rfl, hf⟩⟩

theorem visitRegion_ok {o : OpId} {a : Area} {s s' : Tracking} {st : Step}
    (h : visitRegion cx pt t o a s = .ok st s') :
    ∃ region, regionAt cx pt o = .ok region ∧ st = .jump (region.kind.phase a) region.exits ∧
      s'.opAreas = s.opAreas ∧ s.Grows s' ∧
      ∀ kind placement,
        (transition pt.mode pt.conflictChecks region.kind a).2 = some (kind, placement) →
        ∀ x ∈ region.ends, Meets t kind s'.requests x := by
  obtain ⟨region, v, hat, ho, hq, hst, hcases⟩ := visitRegion_cases h
  have hv : s.Grows v := Tracking.grows_of_eq ho hq
  refine ⟨region, hat, hst, ?_⟩
  rcases hcases with ⟨hd, rfl⟩ | ⟨kind, placement, hd, hf⟩
  · exact ⟨ho, hv, by simp [hd]⟩
  · obtain ⟨ho', hg, hm⟩ := fileAll_ok hf fun _ => placement_of_transition hd
    refine ⟨ho'.trans ho, hv.trans hg, fun k p he x hx => ?_⟩
    rw [hd] at he
    cases he
    exact hm x hx

theorem visitMover_cases {o : OpId} {a : Area} {s s' : Tracking} {st : Step}
    (h : visitMover cx pt t o a s = .ok st s') :
    st = .continue ((cx.movability.movable cx.prog o).phase a) ∧
      ((transition pt.mode pt.conflictChecks (cx.movability.movable cx.prog o) a).2 = none ∧
          s' = s ∨
        ∃ kind placement,
          (transition pt.mode pt.conflictChecks (cx.movability.movable cx.prog o) a).2 =
            some (kind, placement) ∧
          file cx t o kind placement (cx.conflicts.conflictsWith o) s = .ok () s') := by
  unfold visitMover at h
  rw [← transition_fst pt.mode pt.conflictChecks (cx.movability.movable cx.prog o) a]
  cases hd : transition pt.mode pt.conflictChecks (cx.movability.movable cx.prog o) a with
  | mk next demand =>
    simp only [hd] at h
    cases demand with
    | none =>
      obtain ⟨rfl, rfl⟩ := Action.pure_ok.mp h
      exact ⟨rfl, .inl ⟨rfl, rfl⟩⟩
    | some d =>
      obtain ⟨_, u, hf, h₁⟩ := Action.bind_ok.mp h
      obtain ⟨rfl, rfl⟩ := Action.pure_ok.mp h₁
      exact ⟨rfl, .inr ⟨d.1, d.2, rfl, hf⟩⟩

theorem visitMover_ok {o : OpId} {a : Area} {s s' : Tracking} {st : Step}
    (h : visitMover cx pt t o a s = .ok st s') :
    st = .continue ((cx.movability.movable cx.prog o).phase a) ∧
      s'.opAreas = s.opAreas ∧ s.Grows s' ∧
      ∀ kind placement,
        (transition pt.mode pt.conflictChecks (cx.movability.movable cx.prog o) a).2 =
          some (kind, placement) →
        Meets t kind s'.requests o := by
  obtain ⟨hst, ⟨hd, rfl⟩ | ⟨kind, placement, hd, hf⟩⟩ := visitMover_cases h
  · exact ⟨hst, rfl, .refl _, by simp [hd]⟩
  · obtain ⟨ho, hg, hm⟩ := file_ok hf fun _ => placement_of_transition hd
    refine ⟨hst, ho, hg, fun k p he => ?_⟩
    rw [hd] at he
    cases he
    exact hm

theorem visitStrayEnd_ok {o : OpId} {a : Area} {s s' : Tracking} {st : Step}
    (h : visitStrayEnd cx o a s = .ok st s') :
    st = .continue a ∧ s'.opAreas = s.opAreas ∧ s'.requests = s.requests := by
  obtain ⟨v, u, hg, h₁⟩ := Action.bind_ok.mp h
  obtain ⟨rfl, rfl⟩ := Action.get_ok.mp hg
  split at h₁
  · cases h₁
    exact ⟨rfl, rfl, rfl⟩
  · cases h₁
    exact ⟨rfl, rfl, rfl⟩

theorem movable_of_marker {prog : Program} {m : Movability} {o : OpId}
    (h : prog.kind o = .library .yield ∨ prog.kind o = .library .atomicEnd ∨
      prog.kind o = .library .atomicBegin) : m.movable prog o = .both := by
  unfold Movability.movable Movability.classify
  split
  · rfl
  · rcases h with h | h | h <;> rw [h]

theorem opens?_of_ne {o : OpId} (h : cx.prog.kind o ≠ .library .atomicBegin) :
    opens? cx pt o = none := if_neg h

theorem opens?_of_region {o : OpId} {region : AtomicRegion}
    (h : cx.prog.kind o = .library .atomicBegin) (hr : regionAt cx pt o = .ok region) :
    opens? cx pt o = some region := by
  rw [opens?, if_pos h, hr]
  rfl

theorem opens?_ok {o : OpId} {region : AtomicRegion} (h : opens? cx pt o = some region) :
    cx.prog.kind o = .library .atomicBegin ∧ regionAt cx pt o = .ok region := by
  unfold opens? at h
  split at h
  · next hk =>
    cases hat : regionAt cx pt o with
    | ok found =>
      rw [hat] at h
      cases h
      exact ⟨hk, rfl⟩
    | error e =>
      rw [hat] at h
      cases h
  · cases h

theorem visit_cases {o : OpId} {a : Area} {s s' : Tracking} {st : Step}
    (h : visit cx pt t o a s = .ok st s') :
    (cx.prog.kind o = .library .yield ∧ st = .continue .pre ∧ s' = recordArea o a s) ∨
    (cx.prog.kind o = .library .atomicBegin ∧
      visitRegion cx pt t o a (recordArea o a s) = .ok st s') ∨
    (cx.prog.kind o = .library .atomicEnd ∧
      visitStrayEnd cx o a (recordArea o a s) = .ok st s') ∨
    (cx.prog.kind o ≠ .library .yield ∧ cx.prog.kind o ≠ .library .atomicBegin ∧
      visitMover cx pt t o a (recordArea o a s) = .ok st s') := by
  obtain ⟨_, v, hm, h₁⟩ := Action.bind_ok.mp h
  obtain rfl := Action.modify_ok.mp hm
  cases hk : cx.prog.kind o with
  | library call =>
    cases call with
    | yield =>
      simp only [hk] at h₁
      obtain ⟨rfl, rfl⟩ := Action.pure_ok.mp h₁
      exact .inl ⟨rfl, rfl, rfl⟩
    | atomicBegin =>
      simp only [hk] at h₁
      exact .inr (.inl ⟨rfl, h₁⟩)
    | atomicEnd =>
      simp only [hk] at h₁
      exact .inr (.inr (.inl ⟨rfl, h₁⟩))
    | _ =>
      simp only [hk] at h₁
      exact .inr (.inr (.inr ⟨by simp, by simp, h₁⟩))
  | _ =>
    simp only [hk] at h₁
    exact .inr (.inr (.inr ⟨by simp, by simp, h₁⟩))

theorem visit_opAreas {o : OpId} {a : Area} {s s' : Tracking} {st : Step}
    (h : visit cx pt t o a s = .ok st s') : s'.opAreas = (recordArea o a s).opAreas := by
  rcases visit_cases h with ⟨-, -, rfl⟩ | ⟨-, h₁⟩ | ⟨-, h₁⟩ | ⟨-, -, h₁⟩
  · rfl
  · obtain ⟨region, -, -, hareas, -⟩ := visitRegion_ok h₁
    exact hareas
  · exact (visitStrayEnd_ok h₁).2.1
  · exact (visitMover_ok h₁).2.1

/-- A visit answers as `effects` says and notes the operation. -/
theorem visit_ok {o : OpId} {a : Area} {s s' : Tracking} {st : Step}
    (h : visit cx pt t o a s = .ok st s') :
    st = (effects cx pt t).visit o a ∧ s.Grows s' ∧ Noted cx pt t o a s' := by
  have hrec := recordArea_grows o a s
  have harea : ∀ {w : Tracking}, w.opAreas = (recordArea o a s).opAreas →
      ∃ b, w.opAreas.get? o = some b ∧ a ≤ b := by
    intro w hw
    rw [hw]
    exact recordArea_area o a s
  have hquiet : cx.movability.movable cx.prog o = .both → opens? cx pt o = none →
      ∀ kind placement, demandAt cx pt o a = some (kind, placement) →
        ∀ x ∈ requestOps cx pt o, Meets t kind s'.requests x := by
    intro hb hn kind placement hd
    simp [demandAt, moverAt, hn, hb, transition] at hd
  rcases visit_cases h with ⟨hy, rfl, rfl⟩ | ⟨hg, h₁⟩ | ⟨he, h₁⟩ | ⟨hy, hg, h₁⟩
  · have hn : opens? cx pt o = none := opens?_of_ne (by simp [hy])
    refine ⟨by simp [effects, hn, phaseAfter, hy], hrec, ⟨harea rfl, ?_⟩⟩
    exact hquiet (movable_of_marker (.inl hy)) hn
  · obtain ⟨region, hat, rfl, ho, hgrow, hfile⟩ := visitRegion_ok h₁
    have hopen := opens?_of_region hg hat
    refine ⟨by simp [effects, hopen, phaseAfter, hg, moverAt], hrec.trans hgrow, ⟨harea ho, ?_⟩⟩
    simpa [demandAt, moverAt, requestOps, hopen] using hfile
  · have hn : opens? cx pt o = none := opens?_of_ne (by simp [he])
    have hb : cx.movability.movable cx.prog o = .both := movable_of_marker (.inr (.inl he))
    obtain ⟨rfl, ho, hr⟩ := visitStrayEnd_ok h₁
    refine ⟨by simp [effects, hn, phaseAfter, he, moverAt, hb, Mover.phase],
      hrec.trans (Tracking.grows_of_eq ho hr), ⟨harea ho, hquiet hb hn⟩⟩
  · have hn : opens? cx pt o = none := opens?_of_ne hg
    obtain ⟨rfl, ho, hgrow, hfile⟩ := visitMover_ok h₁
    refine ⟨by simp [effects, hn, phaseAfter, hy, moverAt], hrec.trans hgrow, ⟨harea ho, ?_⟩⟩
    simpa [demandAt, moverAt, requestOps, hn] using hfile

theorem processor_follows : (processor cx pt t).Follows (effects cx pt t) where
  visit h := (visit_ok h).1
  afterCall h := (Action.pure_ok.mp h).1.symm
  afterReturn h := (Action.pure_ok.mp h).1.symm

theorem revisit_cases {p : Point} {a : Area} {edge : Edge} {s s' : Tracking} {u : Unit}
    (h : revisit cx pt t p a edge s = .ok u s') :
    s' = s ∨ ∃ o, p.op? cx.prog = some o ∧
      file cx t o (revisitKind pt edge) .before [] s = .ok () s' := by
  unfold revisit at h
  split at h
  · obtain ⟨o, v, hc, h₁⟩ := Action.bind_ok.mp h
    obtain ⟨ho, rfl⟩ := Action.check_ok.mp hc
    exact .inr ⟨o, Checked.index_ok.mp ho, h₁⟩
  · obtain ⟨-, rfl⟩ := Action.pure_ok.mp h
    exact .inl rfl

theorem revisit_grows {p : Point} {a : Area} {edge : Edge} {s s' : Tracking} {u : Unit}
    (h : revisit cx pt t p a edge s = .ok u s') : s.Grows s' := by
  rcases revisit_cases h with rfl | ⟨o, -, h₁⟩
  · exact .refl _
  · refine (file_ok h₁ ?_).2.1
    unfold revisitKind
    split <;> simp

theorem processor_respects : (processor cx pt t).Respects Tracking.Grows where
  refl := .refl
  trans := .trans
  visit h := (visit_ok h).2.1
  afterCall h := (Action.pure_ok.mp h).2 ▸ .refl _
  afterReturn h := (Action.pure_ok.mp h).2 ▸ .refl _
  revisit h := revisit_grows h

end PhaseTracker

end YieldPlan
