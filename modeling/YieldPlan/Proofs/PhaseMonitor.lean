import YieldPlan.Proofs.StaticReduction
import YieldPlan.Proofs.ThreadRequests

/-! The monitor of a planned thread holds its phase variable and remembers whether a mover has
committed since the last yield. What the plan puts on one side of an operation is what the request
there asks for, apart from the initialisation at the first operation. In dynamic mode it raises the
variable, or the thread starts anew before its commit point. -/

namespace YieldPlan

/-- What a planned thread does that matters to its phase variable. -/
inductive PhaseEvent where
  | acts (a : PlanAction)
  /-- An operation, or a region as a whole, runs and moves so. -/
  | moves (m : Mover)
  | yields
  deriving DecidableEq, Repr

/-- The phase variable of a thread, and whether the thread has committed since its last yield. -/
structure Monitor where
  phase : Phase
  committed : Bool
  deriving DecidableEq, Repr

/-- Actions that yield if the phase variable is `post`, perhaps on a further condition. -/
def PlanAction.Guards : PlanAction → Prop
  | .phaseGuardedYield | .conflictGuardedYield _ => True
  | _ => False

/-- Actions that leave the phase variable at `post`. -/
def PlanAction.Raises (a : PlanAction) : Prop := a = .setPhase .post ∨ a.Guards

namespace Monitor

/-- The initialisation is executed only where `calm` holds. Whether a checked block is active is left
open. -/
inductive Step (calm : Monitor → Prop) : Monitor → PhaseEvent → Monitor → Prop where
  | commit {m k} : k.Commits → Step calm m (.moves k) { m with committed := true }
  | move {m k} : ¬ k.Commits → Step calm m (.moves k) m
  | yieldCall {m} : Step calm m .yields { m with committed := false }
  | yield {m} : Step calm m (.acts .yield) { m with committed := false }
  | init {m} : calm m → Step calm m (.acts .initPhase) { m with phase := .pre }
  | set {m phase} : Step calm m (.acts (.setPhase phase)) { m with phase }
  | guardYields {m a} : a.Guards → m.phase = .post →
      Step calm m (.acts a) { phase := .post, committed := false }
  | guardPasses {m a} : a.Guards → m.phase = .pre → Step calm m (.acts a) { m with phase := .post }
  | inactive {m checks} :
      Step calm m (.acts (.conflictGuardedYield checks)) { m with phase := .post }

inductive Run (calm : Monitor → Prop) : Monitor → List PhaseEvent → Monitor → Prop where
  | nil {m} : Run calm m [] m
  | cons {m e m₁ es m'} : Step calm m e m₁ → Run calm m₁ es m' → Run calm m (e :: es) m'

def Uncommitted (m : Monitor) : Prop := m.committed = false

/-- Actions after which the thread is before its commit point and has just yielded. -/
def Anew (es : List PhaseEvent) : Prop :=
  es = [.acts .initPhase] ∨ es = [.acts .yield, .acts (.setPhase .pre)]

variable {calm : Monitor → Prop} {m m' : Monitor} {es fs : List PhaseEvent}

theorem run_append : Run calm m (es ++ fs) m' ↔ ∃ m₁, Run calm m es m₁ ∧ Run calm m₁ fs m' := by
  induction es generalizing m with
  | nil =>
    constructor
    · intro h
      exact ⟨m, .nil, h⟩
    · rintro ⟨m₁, hnil, h⟩
      cases hnil
      exact h
  | cons e es ih =>
    constructor
    · intro h
      cases h with
      | cons hstep hrest =>
        obtain ⟨m₁, hes, hfs⟩ := ih.mp hrest
        exact ⟨m₁, .cons hstep hes, hfs⟩
    · rintro ⟨m₁, hes, hfs⟩
      cases hes with
      | cons hstep hes => exact .cons hstep (ih.mpr ⟨m₁, hes, hfs⟩)

theorem run_singleton {e : PhaseEvent} : Run calm m [e] m' ↔ Step calm m e m' := by
  constructor
  · intro h
    cases h with
    | cons hstep hrest =>
      cases hrest
      exact hstep
  · intro h
    exact .cons h .nil

theorem Step.raised {a : PlanAction} (h : Step calm m (.acts a) m') (ha : a.Raises) :
    m'.phase = .post := by
  cases h with
  | yield => simp [PlanAction.Raises, PlanAction.Guards] at ha
  | init => simp [PlanAction.Raises, PlanAction.Guards] at ha
  | set => simpa [PlanAction.Raises, PlanAction.Guards] using ha
  | _ => rfl

theorem run_moves {k : Mover} (h : Run calm m (.moves k :: es) m') :
    ∃ c, Run calm ⟨m.phase, c⟩ es m' ∧ (¬ k.Commits → c = m.committed) := by
  cases h with
  | cons hstep hrest =>
    cases hstep with
    | commit hk => exact ⟨true, hrest, fun hn => absurd hk hn⟩
    | move _ => exact ⟨m.committed, hrest, fun _ => rfl⟩

theorem Run.anew (h : Run Uncommitted m es m') (hes : Anew es) : m' = ⟨.pre, false⟩ := by
  rcases hes with rfl | rfl
  · cases run_singleton.mp h with
    | init hm =>
      have hm : m.committed = false := hm
      rw [hm]
    | guardYields ha => exact ha.elim
    | guardPasses ha => exact ha.elim
  · cases h with
    | cons hyield hset =>
      cases hyield with
      | yield =>
        cases run_singleton.mp hset with
        | set => rfl
        | guardYields ha => exact ha.elim
        | guardPasses ha => exact ha.elim
      | guardYields ha => exact ha.elim
      | guardPasses ha => exact ha.elim

end Monitor

def ThreadPlan.eventsAt (plan : ThreadPlan) (o : OpId) (side : Placement) : List PhaseEvent :=
  (plan.steps.filter fun s => s.op = o && s.placement = side).map fun s => .acts s.action

namespace Plan

variable {cx : Analysis} {pt : PhaseTracker} {t : ThreadId} {x : OpId} {side : Placement}

def eventsOf (cx : Analysis) (pt : PhaseTracker) (side : Placement) (r : BlockStart) :
    List PhaseEvent :=
  ((actions cx pt r).filter fun a => a.1 = side).map fun a => .acts a.2

theorem events_requestSteps (r : BlockStart) :
    (((requestSteps cx pt r).filter fun s => s.op = x && s.placement = side).map
      fun s => PhaseEvent.acts s.action) = if r.op = x then eventsOf cx pt side r else [] := by
  unfold requestSteps eventsOf
  rw [List.filter_map, List.map_map]
  by_cases h : r.op = x
  · rw [if_pos h]
    simp [Function.comp_def, h]
  · rw [if_neg h]
    simp [Function.comp_def, h]

theorem events_flatMap {l : List BlockStart} (h : (l.map (·.op)).Nodup) :
    ((l.flatMap (requestSteps cx pt)).filter fun s => s.op = x && s.placement = side).map
        (fun s => PhaseEvent.acts s.action) =
      (l.find? fun r => r.op = x).elim [] (eventsOf cx pt side) := by
  induction l with
  | nil => rfl
  | cons r l ih =>
    rw [List.map_cons, List.nodup_cons] at h
    rw [List.flatMap_cons, List.filter_append, List.map_append, events_requestSteps, ih h.2]
    by_cases hr : r.op = x
    · have hnone : l.find? (fun r => r.op = x) = none := by
        apply List.find?_eq_none.mpr
        intro r' hr' heq
        apply h.1
        exact List.mem_map.mpr ⟨r', hr', (of_decide_eq_true heq).trans hr.symm⟩
      simp [hr, hnone]
    · simp [hr]

/-- Apart from the initialisation at its first operation a planned thread does next to an operation
what its request there asks for. -/
theorem eventsAt_ofThread {first : OpId} (hnodup : ((pt.requests.ofThread t).map (·.op)).Nodup)
    (hhead : ((pt.requests.ofThread t).map (·.op)).head? = some first) :
    ∃ inits, (inits = [] ∨ inits = [.acts .initPhase] ∧ x = first ∧ side = .before) ∧
      (ofThread cx pt t).eventsAt x side =
        inits ++ (pt.requests.get? t x).elim [] (eventsOf cx pt side) := by
  unfold ThreadPlan.eventsAt ofThread
  rw [List.filter_append, List.map_append, events_flatMap hnodup]
  refine ⟨_, ?_, rfl⟩
  unfold initSteps
  split
  · next r rest _ hrequests =>
    obtain rfl : r.op = first := by
      rw [hrequests] at hhead
      exact Option.some.inj hhead
    split
    · exact .inl rfl
    · by_cases hhere : r.op = x ∧ Placement.before = side
      · obtain ⟨rfl, rfl⟩ := hhere
        right
        simp
      · left
        rw [not_and] at hhere
        simpa using hhere
  · exact .inl rfl

/-- In dynamic mode a request either breaks a loop or raises the phase variable on its side. -/
theorem eventsOf_dynamic (hmode : pt.mode = .dynamic) {r : BlockStart} (hr : r.kind ≠ .static) :
    (r.kind = .loopBreak ∧
      (eventsOf cx pt side r = [] ∨ side = .before ∧ Monitor.Anew (eventsOf cx pt side r))) ∨
    (r.kind ≠ .loopBreak ∧ ∃ a : PlanAction, a.Raises ∧
      eventsOf cx pt side r = if r.placement = side then [.acts a] else []) := by
  unfold eventsOf actions Monitor.Anew
  cases hk : r.kind with
  | static => exact absurd hk hr
  | loopBreak =>
    left
    by_cases hid : r.id = 0 <;> cases side <;> simp [hmode, hid]
  | phaseShift =>
    refine .inr ⟨by simp, .setPhase .post, .inl rfl, ?_⟩
    by_cases hp : r.placement = side <;> simp [hmode, hp]
  | phaseDynamic =>
    refine .inr ⟨by simp, .phaseGuardedYield, .inr trivial, ?_⟩
    by_cases hp : r.placement = side <;> simp [hmode, hp]
  | dynamicConflict =>
    refine .inr ⟨by simp, .conflictGuardedYield (checks cx pt r.sources), .inr trivial, ?_⟩
    by_cases hp : r.placement = side <;> simp [hmode, hp]

end Plan

end YieldPlan
