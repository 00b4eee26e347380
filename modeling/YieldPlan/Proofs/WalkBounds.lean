import YieldPlan.Proofs.ClosedWalks
import YieldPlan.Proofs.WalkFixedPoint

/-! A point is explored when it is first reached, and then only when its area is enlarged or when
this walk has not explored it yet. Areas have two levels, so that a walk explores each point at most
twice, and the steps between two explorations are bounded by what is on the stack. Nothing of this
depends on the answers of the processor: it may keep a state, change its answers from call to call
and fail. -/

namespace YieldPlan

namespace Action

variable {σ α β : Type}

def final : EStateM.Result Failure σ α → σ
  | .ok _ s => s
  | .error _ s => s

def answer? : EStateM.Result Failure σ α → Option α
  | .ok a _ => some a
  | .error _ _ => none

theorem eq_ok {r : EStateM.Result Failure σ α} {a : α} (h : answer? r = some a) :
    r = .ok a (final r) := by
  cases r with
  | ok b s => cases h; rfl
  | error e s => cases h

theorem get_bind (f : σ → Action σ α) (s : σ) : ((get : Action σ σ) >>= f) s = f s s := rfl

theorem bind_error {x : Action σ α} {f : α → Action σ β} {s s' : σ} {e : Failure} :
    (x >>= f) s = .error e s' ↔
      x s = .error e s' ∨ ∃ a t, x s = .ok a t ∧ f a t = .error e s' := by
  show EStateM.bind x f s = _ ↔ _
  unfold EStateM.bind
  cases x s <;> simp

theorem check_error {x : Checked α} {s s' : σ} {e : Failure} :
    (check x : Action σ α) s = .error e s' ↔ x = .error e ∧ s = s' := by
  cases x with
  | ok a =>
    show EStateM.Result.ok a s = _ ↔ _
    simp
  | error d =>
    show EStateM.Result.error d s = _ ↔ _
    simp

end Action

namespace Walk

open YieldPlan.Action

variable {σ : Type} {prog : Program} {P : Processor σ}

theorem lift_error {α : Type} {x : Action σ α} {w w' : Walk σ} {e : Failure} :
    lift x w = .error e w' ↔ ∃ s, x w.state = .error e s ∧ w' = { w with state := s } := by
  unfold lift
  cases x w.state with
  | ok b s => simp
  | error d s => simp [eq_comm]

theorem enter_fails {w w' : Walk σ} {p : Point} {a : Area} {e : Failure}
    (h : enter P p a w = .error e w') : ∃ s, w' = { w with state := s } := by
  unfold enter at h
  rcases bind_error.mp h with h | ⟨v, u, hg, h⟩
  · cases h
  obtain ⟨rfl, rfl⟩ := Action.get_ok.mp hg
  cases hr : w.areas.get? p with
  | none =>
    simp only [hr] at h
    cases h
  | some r =>
    simp only [hr] at h
    split at h
    · rcases bind_error.mp h with h | ⟨_, u, hl, h⟩
      · obtain ⟨s, -, rfl⟩ := lift_error.mp h
        exact ⟨s, rfl⟩
      · cases h
    · split at h <;> cases h

theorem reach_fails {w w' : Walk σ} {p : Point} {a : Area} {e : Failure}
    (h : reach prog P p a w = .error e w') : (∃ s, w' = { w with state := s }) ∨
    ∃ area s s', Admits P w p a area s ∧
      w' = { w with state := s', areas := w.areas.put p area, visited := p :: w.visited } := by
  unfold reach at h
  rcases bind_error.mp h with h | ⟨x, v, he, h⟩
  · exact .inl (enter_fails h)
  rcases enter_cases he with ⟨rfl, -⟩ | ⟨area, s, rfl, ha, rfl⟩
  · have hpure : (pure false : Action (Walk σ) Bool) v = .error e w' := h
    cases hpure
  refine .inr ⟨area, s, ?_⟩
  rcases bind_error.mp h with h | ⟨_, u, -, h⟩
  · unfold explore at h
    rcases bind_error.mp h with h | ⟨ops, v, hc, h⟩
    · obtain ⟨-, rfl⟩ := check_error.mp h
      exact ⟨s, ha, rfl⟩
    · obtain ⟨-, rfl⟩ := Action.check_ok.mp hc
      rw [runOps_eq_lift] at h
      rcases bind_error.mp h with h | ⟨_, u, -, h⟩
      · obtain ⟨s', -, rfl⟩ := lift_error.mp h
        exact ⟨s', ha, rfl⟩
      · cases h
  · cases h

theorem step_fails {w w' : Walk σ} {e : Failure} (h : step prog P w = .error e w') :
    ∃ f rest p pending, w.stack = f :: rest ∧ f.pending = p :: pending ∧
      reach prog P p f.out { w with stack := { f with pending } :: rest } = .error e w' := by
  unfold step at h
  rcases bind_error.mp h with h | ⟨v, u, hg, h⟩
  · cases h
  obtain ⟨rfl, rfl⟩ := Action.get_ok.mp hg
  cases hs : w.stack with
  | nil =>
    simp only [hs] at h
    cases h
  | cons f rest =>
    simp only [hs] at h
    cases hp : f.pending with
    | nil =>
      simp only [hp] at h
      cases h
    | cons p pending =>
      simp only [hp] at h
      rcases bind_error.mp h with h | ⟨_, u, hm, h⟩
      · cases h
      obtain rfl := Action.modify_ok.mp hm
      rcases bind_error.mp h with h | ⟨_, u, -, h⟩
      · exact ⟨f, rest, p, pending, rfl, hp, h⟩
      · cases h

/-- Steps from a walk on, until one fails or the stack is empty, come to this end. -/
inductive Concludes (prog : Program) (P : Processor σ) :
    Walk σ → EStateM.Result Failure (Walk σ) Unit → Prop where
  | done {w w'} : step prog P w = .ok .done w' → Concludes prog P w (.ok () w')
  | fail {w w' e} : step prog P w = .error e w' → Concludes prog P w (.error e w')
  | next {w v r progress} : step prog P w = .ok progress v → progress ≠ .done →
      Concludes prog P v r → Concludes prog P w r

theorem drain_concludes {next : Action (Walk σ) Unit} {fuel : Nat} {w : Walk σ}
    (hnext : ∀ v, potential prog v < potential prog w → Concludes prog P v (next v))
    (hfuel : weight w.stack < fuel) : Concludes prog P w (drain prog P next fuel w) := by
  induction fuel generalizing w with
  | zero => omega
  | succ fuel ih =>
    show Concludes prog P w (EStateM.bind (step prog P) _ w)
    unfold EStateM.bind
    cases hs : step prog P w with
    | error e v => exact .fail hs
    | ok progress v =>
      have hprogress := step_progress hs
      cases progress with
      | done => exact .done hs
      | moved =>
        obtain ⟨hweight, hpotential⟩ := hprogress
        refine .next hs (by decide) (ih ?_ (by omega))
        rw [hpotential]
        exact hnext
      | explored => exact .next hs (by decide) (hnext v hprogress)

theorem run_concludes {budget : Nat} {w : Walk σ} (h : potential prog w < budget) :
    Concludes prog P w (run prog P budget w) := by
  induction budget generalizing w with
  | zero => omega
  | succ budget ih =>
    have hrun : run prog P (budget + 1) w =
        drain prog P (run prog P budget) (weight w.stack + 1) w := rfl
    rw [hrun]
    exact drain_concludes (fun v hv => ih (by omega)) (by omega)

/-- The states that a walk goes through once it has reached its first point, with the points that it has
explored by then. -/
inductive Course (prog : Program) (P : Processor σ) (first : Point) (initial : Area) (w : Walk σ) :
    List Point → Walk σ → Prop where
  | start {b v} : reach prog P first initial w = .ok b v →
      Course prog P first initial w (if b then [first] else []) v
  | move {h v u} : Course prog P first initial w h v → step prog P v = .ok .moved u →
      Course prog P first initial w h u
  | explore {h v u f rest p pending} : Course prog P first initial w h v → v.stack = f :: rest →
      f.pending = p :: pending → step prog P v = .ok .explored u →
      Course prog P first initial w (p :: h) u

/-- The walk reaches a point in an area: the first one, or the next one that the innermost point leads
to. -/
inductive Arrives (prog : Program) (P : Processor σ) (first : Point) (initial : Area) (w : Walk σ) :
    Point → Area → List Point → Walk σ → Prop where
  | first : Arrives prog P first initial w first initial [] w
  | next {h v f rest p pending} : Course prog P first initial w h v → v.stack = f :: rest →
      f.pending = p :: pending →
      Arrives prog P first initial w p f.out h { v with stack := { f with pending } :: rest }

/-- The account that a walk keeps of what it has explored and of what is on its stack. -/
structure Tallied (history : List Point) (w : Walk σ) : Prop where
  visited : w.visited = history
  frames : ∀ p, (w.active.get? p).getD 0 = (w.stack.map (·.point)).count p
  bounded : ∀ p, history.count p + w.slack p ≤ 2

namespace Tallied

variable {history : List Point} {w w' : Walk σ} {p : Point} {a area : Area} {s s' : σ}

theorem start (s : σ) (areas : Table Point Area) : Tallied [] ({ state := s, areas } : Walk σ) where
  visited := rfl
  frames p := by simp [Table.get?]
  bounded p := by simpa using slack_le_two _ p

theorem pop (h : w.Tallied history) {f : Frame} {rest : List Frame} (hs : w.stack = f :: rest)
    (pending : List Point) : Tallied history { w with stack := { f with pending } :: rest } where
  visited := h.visited
  frames p := by
    rw [h.frames p, hs]
    rfl
  bounded := h.bounded

theorem leave (h : w.Tallied history) {f : Frame} {rest : List Frame} (hs : w.stack = f :: rest) :
    (w.left f.point rest).Tallied history where
  visited := h.visited
  frames p := by
    have hframes := h.frames p
    rw [hs, List.map_cons, List.count_cons] at hframes
    simp only [left, Table.get?_put]
    by_cases hp : p = f.point
    · subst hp
      simp only [if_true, beq_self_eq_true, Option.getD_some] at hframes ⊢
      omega
    · have hne : (f.point == p) = false := by simpa using Ne.symm hp
      simpa [hp, hne] using hframes
  bounded := h.bounded

theorem pays (h : w.Tallied history) (hadmits : Admits P w p a area s) (s' : σ) (out : Area)
    (pending : List Point) (q : Point) :
    (p :: history).count q + (w.explored p area s' out pending).slack q ≤ 2 := by
  have hbounded := h.bounded q
  by_cases hq : q = p
  · subst hq
    have hslack : (w.explored q area s' out pending).slack q < w.slack q :=
      slack_explored_self hadmits
    rw [List.count_cons_self]
    omega
  · rw [slack_explored_of_ne hq, List.count_cons_of_ne (Ne.symm hq)]
    exact hbounded

theorem explored (h : w.Tallied history) (hadmits : Admits P w p a area s) (s' : σ) (out : Area)
    (pending : List Point) : (w.explored p area s' out pending).Tallied (p :: history) where
  visited := by rw [Walk.explored, h.visited]
  frames q := by
    have hframes := h.frames q
    simp only [Walk.explored, Table.get?_put, List.map_cons, List.count_cons]
    by_cases hq : q = p
    · subst hq
      simp [hframes]
    · have hne : (p == q) = false := by simpa using Ne.symm hq
      simpa [hq, hne] using hframes
  bounded := h.pays hadmits s' out pending

theorem reach (h : w.Tallied history) {b : Bool} (hr : reach prog P p a w = .ok b w') :
    w'.Tallied (if b then p :: history else history) := by
  rcases reach_cases hr with ⟨rfl, rfl, -⟩ | ⟨rfl, area, s, ops, out, pending, s', ha, -, -, rfl⟩
  · exact h
  · exact h.explored ha s' out pending

theorem reach_fails (h : w.Tallied history) {e : Failure} (hr : Walk.reach prog P p a w = .error e w')
    (q : Point) : w'.visited.count q ≤ 2 ∧ (w'.active.get? q).getD 0 =
      (w'.stack.map (·.point)).count q := by
  rcases Walk.reach_fails hr with ⟨s, rfl⟩ | ⟨area, s, s', ha, rfl⟩
  · have hbounded := h.bounded q
    rw [h.visited]
    exact ⟨by omega, h.frames q⟩
  · have hpays := h.pays ha s' area [] q
    rw [h.visited]
    exact ⟨Nat.le_trans (Nat.le_add_right _ _) hpays, h.frames q⟩

end Tallied

section Course

variable {first : Point} {initial : Area} {s : σ} {areas : Table Point Area}
  {history : List Point} {w v : Walk σ}

theorem Course.tallied (h : Course prog P first initial { state := s, areas } history v) :
    v.Tallied history := by
  induction h with
  | @start b v hr => simpa using (Tallied.start s areas).reach hr
  | @move history v u _ hstep ih =>
    rcases step_cases hstep with ⟨-, hpr, -⟩ | ⟨f, rest, hs, -, -, rfl⟩ |
      ⟨f, rest, p, pending, b, hs, -, hr, hpr⟩
    · cases hpr
    · exact ih.leave hs
    · cases b with
      | false => exact (ih.pop hs pending).reach hr
      | true => cases hpr
  | @explore history v u f rest p pending _ hs hp hstep ih =>
    rcases step_cases hstep with ⟨-, hpr, -⟩ | ⟨_, _, -, -, hpr, -⟩ |
      ⟨f', rest', p', pending', b, hs', hp', hr, hpr⟩
    · cases hpr
    · cases hpr
    · obtain ⟨rfl, rfl⟩ := List.cons.inj (hs.symm.trans hs')
      obtain ⟨rfl, rfl⟩ := List.cons.inj (hp.symm.trans hp')
      cases b with
      | false => cases hpr
      | true => exact (ih.pop hs pending).reach hr

theorem Arrives.tallied {p : Point} {a : Area}
    (h : Arrives prog P first initial { state := s, areas } p a history v) : v.Tallied history := by
  cases h with
  | first => exact .start s areas
  | next hcourse hs _ => exact hcourse.tallied.pop hs _

theorem Course.fails (h : Course prog P first initial w history v) {e : Failure} {u : Walk σ}
    (hstep : step prog P v = .error e u) : ∃ p a v', Arrives prog P first initial w p a history v' ∧
      reach prog P p a v' = .error e u := by
  obtain ⟨f, rest, p, pending, hs, hp, hr⟩ := step_fails hstep
  exact ⟨p, f.out, _, .next h hs hp, hr⟩

theorem Course.step (h : Course prog P first initial w history v) {progress : Progress} {u : Walk σ}
    (hstep : Walk.step prog P v = .ok progress u) :
    ∃ history', Course prog P first initial w history' u := by
  cases progress with
  | done =>
    obtain ⟨-, rfl⟩ := step_progress hstep
    exact ⟨history, h⟩
  | moved => exact ⟨history, h.move hstep⟩
  | explored =>
    rcases step_cases hstep with ⟨-, hpr, -⟩ | ⟨_, _, -, -, hpr, -⟩ |
      ⟨f, rest, p, pending, b, hs, hp, -, -⟩
    · cases hpr
    · cases hpr
    · exact ⟨p :: history, h.explore hs hp hstep⟩

theorem course_of_moves (h : Course prog P first initial w history v) {u : Walk σ}
    (hmoves : Relation.ReflTransGen (Moves prog P) v u) :
    ∃ history', Course prog P first initial w history' u := by
  induction hmoves with
  | refl => exact ⟨history, h⟩
  | tail _ hlast ih =>
    obtain ⟨history', h'⟩ := ih
    obtain ⟨progress, hstep⟩ := hlast
    exact h'.step hstep

theorem moves_after {v u w' : Walk σ} {progress : Progress}
    (hmoves : Relation.ReflTransGen (Moves prog P) v w') (hempty : w'.stack = [])
    (hstep : Walk.step prog P v = .ok progress u) (hne : progress ≠ .done) :
    Relation.ReflTransGen (Moves prog P) u w' := by
  rcases hmoves.cases_head with rfl | ⟨u', ⟨progress', hstep'⟩, hrest⟩
  · rcases step_cases hstep with ⟨-, hdone, -⟩ | ⟨f, rest, hs, -⟩ | ⟨f, rest, p, pending, b, hs, -⟩
    · exact absurd hdone hne
    · rw [hempty] at hs
      cases hs
    · rw [hempty] at hs
      cases hs
  · rw [hstep] at hstep'
    cases hstep'
    exact hrest

theorem Course.finishes (h : Course prog P first initial w history v) {w' : Walk σ}
    (hwalk : prog.walk P first initial w = .ok () w') :
    Relation.ReflTransGen (Moves prog P) v w' := by
  obtain ⟨b, u, hreach, hmoves, hempty⟩ := walk_ok hwalk
  induction h with
  | start hr =>
    rw [hreach] at hr
    cases hr
    exact hmoves
  | move _ hs ih => exact moves_after ih hempty hs (by decide)
  | explore _ _ _ hs ih => exact moves_after ih hempty hs (by decide)

theorem Arrives.finishes {p : Point} {a : Area} (h : Arrives prog P first initial w p a history v)
    {w' : Walk σ} (hwalk : prog.walk P first initial w = .ok () w') :
    ∃ b u, Walk.reach prog P p a v = .ok b u ∧ Relation.ReflTransGen (Moves prog P) u w' := by
  obtain ⟨b, u, hreach, hmoves, hempty⟩ := walk_ok hwalk
  cases h with
  | first => exact ⟨b, u, hreach, hmoves⟩
  | next hcourse hs hp =>
    rcases (hcourse.finishes hwalk).cases_head with rfl | ⟨u', ⟨progress, hstep⟩, hrest⟩
    · rw [hempty] at hs
      cases hs
    rcases step_cases hstep with ⟨hs', -⟩ | ⟨f', rest', hs', hp', -⟩ |
      ⟨f', rest', p', pending', b', hs', hp', hr, -⟩
    · cases hs.symm.trans hs'
    · cases hs.symm.trans hs'
      cases hp.symm.trans hp'
    · cases hs.symm.trans hs'
      cases hp.symm.trans hp'
      exact ⟨b', u', hr, hrest⟩

theorem Course.of_error (h : Course prog P first initial w history v) {e : Failure} {u : Walk σ}
    (hend : Concludes prog P v (.error e u)) :
    ∃ history' v', Course prog P first initial w history' v' ∧ Walk.step prog P v' = .error e u := by
  generalize hr : (EStateM.Result.error e u : EStateM.Result Failure (Walk σ) Unit) = r at hend
  induction hend generalizing history with
  | done => cases hr
  | fail hstep =>
    cases hr
    exact ⟨history, _, h, hstep⟩
  | next hstep _ _ ih =>
    obtain ⟨history', h'⟩ := h.step hstep
    exact ih h' hr

end Course

variable (prog P) in
theorem reach_final_extends (p : Point) (a : Area) (w : Walk σ) :
    w.Extends (final (reach prog P p a w)) := by
  cases hr : reach prog P p a w with
  | ok b w' => exact reach_extends hr
  | error e w' =>
    rcases reach_fails hr with ⟨s, rfl⟩ | ⟨area, s, s', ha, rfl⟩
    · exact ⟨fun _ h => h, fun _ b h => ⟨b, h, Area.le_refl b⟩⟩
    · have hext : w.Extends (w.explored p area s' area []) := explored_extends ha
      exact ⟨hext.visited, hext.areas⟩

variable (prog P) in
theorem step_final_extends (w : Walk σ) : w.Extends (final (step prog P w)) := by
  cases hs : step prog P w with
  | ok progress w' => exact Moves.extends ⟨progress, hs⟩
  | error e w' =>
    obtain ⟨f, rest, p, pending, -, -, hr⟩ := step_fails hs
    have hext := reach_final_extends prog P p f.out { w with stack := { f with pending } :: rest }
    rw [hr] at hext
    exact ⟨hext.visited, hext.areas⟩

theorem Concludes.extends {w : Walk σ} {r : EStateM.Result Failure (Walk σ) Unit}
    (h : Concludes prog P w r) : w.Extends (final r) := by
  induction h with
  | done hstep => exact Moves.extends ⟨_, hstep⟩
  | @fail w w' e hstep =>
    have hext := step_final_extends prog P w
    rwa [hstep] at hext
  | next hstep _ _ ih => exact (Moves.extends ⟨_, hstep⟩).trans ih

end Walk

/-- From states of `S` the processor answers valid points only, and it stays in `S`. -/
structure Processor.AnswersValid {σ : Type} (prog : Program) (P : Processor σ) (S : σ → Prop) :
    Prop where
  visit : ∀ {o a s st s'}, S s → P.visit o a s = .ok st s' → S s' ∧ st.Within (Point.Valid prog)
  afterCall : ∀ {o f q s l s'}, S s → P.afterCall o f q s = .ok l s' →
    S s' ∧ ∀ q ∈ l, q.Valid prog
  afterReturn : ∀ {f s l s'}, S s → P.afterReturn f s = .ok l s' → S s' ∧ ∀ q ∈ l, q.Valid prog
  revisit : ∀ {p r a edge s u s'}, S s → P.revisit p r a edge s = .ok u s' → S s'

def Processor.Throws {σ : Type} (P : Processor σ) (e : Failure) : Prop :=
  (∃ o a s s', P.visit o a s = .error e s') ∨ (∃ o f q s s', P.afterCall o f q s = .error e s') ∨
    (∃ f s s', P.afterReturn f s = .error e s') ∨
    ∃ p r a edge s s', P.revisit p r a edge s = .error e s'

theorem Action.ends_of {σ α : Type} {x : Action σ α} {s : σ} {Q : α → σ → Prop} {E : Failure → Prop}
    (hok : ∀ {a s'}, x s = .ok a s' → Q a s') (herror : ∀ {e s'}, x s = .error e s' → E e) :
    x.Ends s Q E := by
  unfold Action.Ends
  cases hx : x s with
  | ok a s' => exact hok hx
  | error e s' => exact herror hx

theorem Processor.AnswersValid.closed {σ : Type} {prog : Program} {P : Processor σ} {S : σ → Prop}
    (h : P.AnswersValid prog S)
    (hsuccs : ∀ b, ∀ c ∈ (prog.block b).succs, (Point.entry c).Valid prog) :
    P.Closed prog (Point.Valid prog) S P.Throws where
  valid := id
  branch _ hb := hsuccs _ _ hb
  visit _ _ hS := Action.ends_of (h.visit hS) fun hx => .inl ⟨_, _, _, _, hx⟩
  afterCall _ _ _ hS := Action.ends_of (h.afterCall hS) fun hx => .inr (.inl ⟨_, _, _, _, _, hx⟩)
  afterReturn hS := Action.ends_of (h.afterReturn hS) fun hx => .inr (.inr (.inl ⟨_, _, _, hx⟩))
  revisit _ hS := Action.ends_of (h.revisit hS) fun hx => .inr (.inr (.inr ⟨_, _, _, _, _, _, hx⟩))

namespace Walk

open YieldPlan.Action

variable {σ : Type}

variable {prog : Program} {P : Processor σ}

theorem walk_concludes (prog : Program) (P : Processor σ) (first : Point) (initial : Area)
    (w : Walk σ) :
    match reach prog P first initial w with
    | .ok _ v => Concludes prog P v (prog.walk P first initial w)
    | .error e v => prog.walk P first initial w = .error e v := by
  have hwalk : prog.walk P first initial w =
      EStateM.bind (reach prog P first initial) (fun _ => run prog P (2 * prog.pointCount + 1)) w := rfl
  rw [hwalk, EStateM.bind]
  cases reach prog P first initial w with
  | ok b v =>
    have hpotential := potential_le prog v
    exact run_concludes (by omega)
  | error e v => rfl

theorem walk_fails_at {first : Point} {initial : Area} {w u : Walk σ} {e : Failure}
    (h : prog.walk P first initial w = .error e u) : ∃ p a history v,
      Arrives prog P first initial w p a history v ∧ reach prog P p a v = .error e u := by
  have hend := walk_concludes prog P first initial w
  rw [h] at hend
  cases hr : reach prog P first initial w with
  | ok b v =>
    rw [hr] at hend
    obtain ⟨history, v', hcourse, hstep⟩ := (Course.start hr).of_error hend
    obtain ⟨p, a, v'', harrives, hfail⟩ := hcourse.fails hstep
    exact ⟨p, a, history, v'', harrives, hfail⟩
  | error d v =>
    simp only [hr] at hend
    cases hend
    exact ⟨first, initial, [], w, .first, hr⟩

theorem walk_final_extends (first : Point) (initial : Area) (w : Walk σ) :
    w.Extends (final (prog.walk P first initial w)) := by
  have hend := walk_concludes prog P first initial w
  have hext := reach_final_extends prog P first initial w
  cases hr : reach prog P first initial w with
  | ok b v =>
    rw [hr] at hend hext
    exact hext.trans hend.extends
  | error e v =>
    simp only [hr] at hend hext
    rw [hend]
    exact hext

theorem walk_visits_twice (first : Point) (initial : Area) (s : σ) (areas : Table Point Area)
    (p : Point) : (final (prog.walk P first initial { state := s, areas })).visited.count p ≤ 2 := by
  cases h : prog.walk P first initial { state := s, areas } with
  | ok _ w' =>
    obtain ⟨b, v, hr, hmoves, -⟩ := walk_ok h
    obtain ⟨history, hcourse⟩ := course_of_moves (Course.start hr) hmoves
    have htallied := hcourse.tallied
    show w'.visited.count p ≤ 2
    rw [htallied.visited]
    exact Nat.le_trans (Nat.le_add_right _ _) (htallied.bounded p)
  | error e w' =>
    obtain ⟨q, a, history, v, harrives, hfail⟩ := walk_fails_at h
    exact (harrives.tallied.reach_fails hfail p).1

theorem Tallied.enter_eq {history : List Point} {w : Walk σ} (h : w.Tallied history) {p : Point}
    {a recorded : Area} (hr : w.areas.get? p = some recorded) (hne : recorded.join a ≠ recorded) :
    enter P p a w = (do
      let edge := if p ∈ w.stack.map (·.point) then Edge.back else .cross
      lift (P.revisit p recorded a edge)
      record p (recorded.join a)
      return some (recorded.join a) : Action (Walk σ) (Option Area)) w := by
  have hedge : (if 0 < (w.active.get? p).getD 0 then Edge.back else .cross) =
      if p ∈ w.stack.map (·.point) then .back else .cross := by
    rw [h.frames p]
    simp only [List.count_pos_iff]
  unfold enter
  rw [get_bind]
  simp only [hr]
  rw [if_pos hne, hedge]

/-- What holds of every walk that starts with an empty stack, whatever its processor does. -/
structure Orderly (prog : Program) (P : Processor σ) (first : Point) (initial : Area) (w : Walk σ) :
    Prop where
  /-- The walk ends, and it ends as its loop does without a bound. -/
  concludes : match reach prog P first initial w with
    | .ok _ v => Concludes prog P v (prog.walk P first initial w)
    | .error e v => prog.walk P first initial w = .error e v
  emptied : ∀ w', prog.walk P first initial w = .ok () w' → w'.stack = []
  /-- No point is explored more than twice, at no time and also if the walk fails. -/
  twice : ∀ {history v}, Course prog P first initial w history v → ∀ p, history.count p ≤ 2
  twice_final : ∀ p, (final (prog.walk P first initial w)).visited.count p ≤ 2
  /-- The counter of a point is the number of its frames. -/
  counted : ∀ {history v}, Course prog P first initial w history v →
    ∀ p, (v.active.get? p).getD 0 = (v.stack.map (·.point)).count p
  /-- A point that can be left has a counter that can be lowered. -/
  positive : ∀ {history v}, Course prog P first initial w history v →
    ∀ f rest, v.stack = f :: rest → 0 < (v.active.get? f.point).getD 0
  /-- Wherever the walk arrives at a point and enlarges its area, the processor is told that it came
  back to the point if one of its frames is on the stack, and only then. -/
  edges : ∀ {p a history v recorded}, Arrives prog P first initial w p a history v →
    v.areas.get? p = some recorded → recorded.join a ≠ recorded →
    enter P p a v = (do
      let edge := if p ∈ v.stack.map (·.point) then Edge.back else .cross
      lift (P.revisit p recorded a edge)
      record p (recorded.join a)
      return some (recorded.join a) : Action (Walk σ) (Option Area)) v
  /-- What is recorded only grows, from each step to the next and from the start to the end. -/
  grows : ∀ {history v}, Course prog P first initial w history v → v.Extends (final (step prog P v))
  grows_final : w.Extends (final (prog.walk P first initial w))
  /-- If the processor answers valid points only, then only the processor itself makes the walk fail. -/
  fails : ∀ S, P.AnswersValid prog S → S w.state → first.Valid prog →
    (∀ b, ∀ c ∈ (prog.block b).succs, (Point.entry c).Valid prog) →
    (prog.walk P first initial).Ends w (fun _ w' => w'.stack = []) P.Throws

theorem Orderly.returns {first : Point} {initial : Area} {w : Walk σ}
    (h : Orderly prog P first initial w) {S : σ → Prop} (hvalid : P.AnswersValid prog S)
    (hS : S w.state) (hfirst : first.Valid prog)
    (hsuccs : ∀ b, ∀ c ∈ (prog.block b).succs, (Point.entry c).Valid prog)
    (hquiet : ∀ e, ¬ P.Throws e) :
    ∃ w', prog.walk P first initial w = .ok () w' ∧ w'.stack = [] := by
  have hends := h.fails S hvalid hS hfirst hsuccs
  unfold Ends at hends
  cases hw : prog.walk P first initial w with
  | ok _ w' => exact ⟨w', rfl, h.emptied w' hw⟩
  | error e w' =>
    rw [hw] at hends
    exact absurd hends (hquiet e)

/-- Whatever a processor does, a walk ends, explores no point more than twice, counts the frames of each
point and lets the recorded areas only grow. Points outside of the program apart, it fails only where
the processor does. -/
theorem walks_end (prog : Program) (P : Processor σ) (first : Point) (initial : Area) (s : σ)
    (areas : Table Point Area) : Orderly prog P first initial { state := s, areas } := by
  have hempty : ∀ w', prog.walk P first initial { state := s, areas } = .ok () w' → w'.stack = [] := by
    intro w' hw'
    obtain ⟨-, -, -, -, hstack⟩ := walk_ok hw'
    exact hstack
  constructor
  case concludes => exact walk_concludes prog P first initial _
  case emptied => exact hempty
  case twice =>
    intro history v hcourse p
    exact Nat.le_trans (Nat.le_add_right _ _) (hcourse.tallied.bounded p)
  case twice_final => exact walk_visits_twice first initial s areas
  case counted =>
    intro history v hcourse
    exact hcourse.tallied.frames
  case positive =>
    intro history v hcourse f rest hs
    rw [hcourse.tallied.frames, hs]
    simp
  case edges =>
    intro p a history v recorded harrives
    exact harrives.tallied.enter_eq
  case grows =>
    intro history v _
    exact step_final_extends prog P v
  case grows_final => exact walk_final_extends first initial _
  case fails =>
    intro S hvalid hS hfirst hsuccs
    have hsafe := Closed.safe_recorded (hvalid.closed hsuccs)
    exact (walk_ends hsafe rfl hS hfirst).mono fun _ w' hw' _ => hempty w' hw'

end Walk

/-- A processor that takes turns: each visit ends in another area than the one before. -/
def Processor.turning : Processor Nat where
  visit _ _ := do
    modify (· + 1)
    return .continue (if (← get) % 2 = 0 then .post else .pre)
  afterCall _ _ _ := return []
  afterReturn _ := return []
  revisit _ _ _ _ := modify (· + 1)

theorem Processor.turning_answersValid (prog : Program) :
    Processor.turning.AnswersValid prog fun _ => True where
  visit := by
    rintro o a n st n' - ⟨⟩
    exact ⟨trivial, Step.within_continue _ _⟩
  afterCall := by
    rintro o f q n l n' - ⟨⟩
    exact ⟨trivial, by simp⟩
  afterReturn := by
    rintro f n l n' - ⟨⟩
    exact ⟨trivial, by simp⟩
  revisit _ _ := trivial

theorem Processor.turning_never_throws (e : Failure) : ¬ Processor.turning.Throws e := by
  rintro (⟨o, a, n, n', h⟩ | ⟨o, f, q, n, n', h⟩ | ⟨f, n, n', h⟩ | ⟨p, r, a, edge, n, n', h⟩) <;> cases h

theorem Program.loop_succs_valid (b : BlockId) :
    ∀ c ∈ (Program.loop.block b).succs, (Point.entry c).Valid Program.loop := by
  intro c hc
  rcases b with _ | _ | b
  · have hc : c = 0 ∨ c = 1 := by simpa [loop, block, block?] using hc
    rcases hc with rfl | rfl <;> exact ⟨_, rfl⟩
  · simp [loop, block, block?] at hc
  · rw [block_of_le (Nat.le_add_left 2 b)] at hc
    cases hc

/-- The walk around the loop ends although the areas keep changing, and explores both points
twice. -/
theorem turning_walk_ends :
    Processor.turning.AnswersValid Program.loop (fun _ => True) ∧
      (Point.entry 0).Valid Program.loop ∧
      (∀ b, ∀ c ∈ (Program.loop.block b).succs, (Point.entry c).Valid Program.loop) ∧
      (Action.final (Program.loop.walk .turning (.entry 0) .pre { state := 0 })).visited =
        [.entry 1, .entry 1, .entry 0, .entry 0] ∧
      ∃ w, Program.loop.walk .turning (.entry 0) .pre { state := 0 } = .ok () w ∧ w.stack = [] := by
  have hfirst : (Point.entry 0).Valid Program.loop := ⟨_, rfl⟩
  refine ⟨Processor.turning_answersValid _, hfirst, Program.loop_succs_valid, by decide +kernel, ?_⟩
  exact (Walk.walks_end Program.loop .turning (.entry 0) .pre 0 {}).returns
    (Processor.turning_answersValid _) trivial hfirst Program.loop_succs_valid
    Processor.turning_never_throws

end YieldPlan
