import YieldPlan.Proofs.WalkRun

/-! Two computations agree if from related states they give the same answer in related states, or
fail alike. Two walks agree if their processors do: they reach the same points in the same areas,
explore the same ones and end with the same recorded areas, whatever the processors keep for
themselves. -/

namespace YieldPlan

namespace Action

variable {σ τ α β : Type} {R : σ → τ → Prop}

/-- The same answer in related states, or the same failure. -/
inductive Agreed (R : σ → τ → Prop) :
    EStateM.Result Failure σ α → EStateM.Result Failure τ α → Prop where
  | ok {s t} (a : α) : R s t → Agreed R (.ok a s) (.ok a t)
  | error {s t} (e : Failure) : Agreed R (.error e s) (.error e t)

def Agree (R : σ → τ → Prop) (x : Action σ α) (y : Action τ α) : Prop :=
  ∀ s t, R s t → Agreed R (x s) (y t)

theorem agree_pure (a : α) : Agree R (pure a) (pure a) := fun _ _ h => .ok a h

theorem agree_check (x : Checked α) : Agree R (check x) (check x) := by
  intro s t h
  cases x with
  | ok a => exact .ok a h
  | error e => exact .error e

theorem agree_modify {f : σ → σ} {g : τ → τ} (h : ∀ s t, R s t → R (f s) (g t)) :
    Agree R (modify f) (modify g) := fun s t hst => .ok () (h s t hst)

theorem Agreed.bind {x : Action σ α} {y : Action τ α} {f : α → Action σ β} {g : α → Action τ β}
    {s : σ} {t : τ} (h : Agreed R (x s) (y t)) (hf : ∀ a, Agree R (f a) (g a)) :
    Agreed R ((x >>= f) s) ((y >>= g) t) := by
  show Agreed R (EStateM.bind x f s) (EStateM.bind y g t)
  unfold EStateM.bind
  cases hx : x s <;> cases hy : y t <;> rw [hx, hy] at h <;> cases h
  · exact hf _ _ _ ‹_›
  · exact .error _

theorem Agree.bind {x : Action σ α} {y : Action τ α} {f : α → Action σ β} {g : α → Action τ β}
    (h : Agree R x y) (hf : ∀ a, Agree R (f a) (g a)) : Agree R (x >>= f) (y >>= g) :=
  fun s t hst => (h s t hst).bind hf

theorem agree_get {f : σ → Action σ β} {g : τ → Action τ β}
    (h : ∀ s t, R s t → Agreed R (f s s) (g t t)) : Agree R (get >>= f) (get >>= g) :=
  fun s t hst => h s t hst

end Action

structure Processor.Agree {σ τ : Type} (R : σ → τ → Prop) (P : Processor σ) (Q : Processor τ) :
    Prop where
  visit : ∀ o a, Action.Agree R (P.visit o a) (Q.visit o a)
  afterCall : ∀ o callee site, Action.Agree R (P.afterCall o callee site) (Q.afterCall o callee site)
  afterReturn : ∀ p, Action.Agree R (P.afterReturn p) (Q.afterReturn p)
  revisit : ∀ p recorded incoming edge,
    Action.Agree R (P.revisit p recorded incoming edge) (Q.revisit p recorded incoming edge)

namespace Walk

open YieldPlan.Action (Agree Agreed agree_pure agree_check agree_modify agree_get)

variable {σ τ : Type} {R : σ → τ → Prop} {prog : Program} {P : Processor σ} {Q : Processor τ}

inductive Alike (R : σ → τ → Prop) : Walk σ → Walk τ → Prop where
  | mk {s t areas stack active visited} : R s t →
      Alike R ⟨s, areas, stack, active, visited⟩ ⟨t, areas, stack, active, visited⟩

theorem lift_agree {α : Type} {x : Action σ α} {y : Action τ α} (h : Agree R x y) :
    Agree (Alike R) (lift x) (lift y) := by
  rintro _ _ ⟨hst⟩
  have hxy := h _ _ hst
  unfold lift
  dsimp only
  cases hx : x _ <;> cases hy : y _ <;> rw [hx, hy] at hxy <;> cases hxy
  · exact .ok _ ⟨‹_›⟩
  · exact .error _

theorem record_agree (p : Point) (a : Area) :
    Agree (Alike R) (record p a) (record p a) :=
  agree_modify fun _ _ ⟨h⟩ => ⟨h⟩

theorem enter_agree (h : Processor.Agree R P Q) (p : Point) (incoming : Area) :
    Agree (Alike R) (enter P p incoming) (enter Q p incoming) := by
  have hrecord : ∀ a, Agree (Alike R) (record p a >>= fun _ => pure (some a))
      (record p a >>= fun _ => pure (some a)) :=
    fun a => (record_agree p a).bind fun _ => agree_pure (some a)
  refine agree_get ?_
  rintro _ _ @⟨s, t, areas, stack, active, visited, hst⟩
  dsimp only
  cases areas.get? p with
  | none => exact hrecord incoming _ _ ⟨hst⟩
  | some recorded =>
    dsimp only
    split
    · exact (lift_agree (h.revisit p recorded incoming _)).bind (fun _ => hrecord _) _ _ ⟨hst⟩
    · split
      · exact .ok none ⟨hst⟩
      · exact hrecord recorded _ _ ⟨hst⟩

theorem follow_agree (h : Processor.Agree R P Q) (b : Block) (succs : List Point) (k : OpKind) :
    Agree R (follow P b succs k) (follow Q b succs k) := by
  cases k with
  | terminator t =>
    cases t with
    | branch => exact agree_pure _
    | ret => exact h.afterReturn b.proc
  | _ => exact agree_pure _

theorem runOps_agree (h : Processor.Agree R P Q) (b : Block) (area : Area) (succs : List Point)
    (ops : List OpId) :
    Agree (Alike R) (runOps prog P b area succs ops) (runOps prog Q b area succs ops) := by
  induction ops generalizing area succs with
  | nil => exact agree_pure _
  | cons o rest ih =>
    refine (lift_agree (h.visit o area)).bind fun st => ?_
    cases st with
    | jump area points => exact agree_pure _
    | «continue» area =>
      cases hk : prog.kind o with
      | call callee =>
        exact (lift_agree (h.afterCall o callee _)).bind fun _ => agree_pure _
      | _ => exact (lift_agree (follow_agree h b succs _)).bind fun succs => ih area succs

theorem explore_agree (h : Processor.Agree R P Q) (p : Point) (area : Area) :
    Agree (Alike R) (explore prog P p area) (explore prog Q p area) := by
  refine (agree_check _).bind fun ops => (runOps_agree h _ area [] ops).bind fun x => ?_
  exact agree_modify fun _ _ ⟨hst⟩ => ⟨hst⟩

theorem reach_agree (h : Processor.Agree R P Q) (p : Point) (area : Area) :
    Agree (Alike R) (reach prog P p area) (reach prog Q p area) := by
  refine (enter_agree h p area).bind fun x => ?_
  cases x with
  | none => exact agree_pure false
  | some area => exact (explore_agree h p area).bind fun _ => agree_pure true

theorem step_agree (h : Processor.Agree R P Q) :
    Agree (Alike R) (step prog P) (step prog Q) := by
  refine agree_get ?_
  rintro _ _ @⟨s, t, areas, stack, active, visited, hst⟩
  cases stack with
  | nil => exact .ok Progress.done (.mk hst)
  | cons f rest =>
    dsimp only
    cases f.pending with
    | nil => exact .ok Progress.moved (.mk hst)
    | cons p pending =>
      refine Agree.bind ?_ (fun _ => (reach_agree h p f.out).bind fun b => agree_pure _) _ _ ⟨hst⟩
      exact agree_modify fun _ _ ⟨hst⟩ => ⟨hst⟩

theorem drain_agree (h : Processor.Agree R P Q) {next : Action (Walk σ) Unit}
    {next' : Action (Walk τ) Unit} (hnext : Agree (Alike R) next next') (fuel : Nat) :
    Agree (Alike R) (drain prog P next fuel) (drain prog Q next' fuel) := by
  induction fuel with
  | zero => exact agree_pure ()
  | succ fuel ih =>
    refine (step_agree h).bind fun progress => ?_
    cases progress with
    | done => exact agree_pure ()
    | moved => exact ih
    | explored => exact hnext

theorem run_agree (h : Processor.Agree R P Q) (budget : Nat) :
    Agree (Alike R) (run prog P budget) (run prog Q budget) := by
  induction budget with
  | zero => exact agree_pure ()
  | succ budget ih =>
    refine agree_get ?_
    rintro _ _ ⟨hst⟩
    exact drain_agree h ih _ _ _ ⟨hst⟩

theorem walk_agree (h : Processor.Agree R P Q) (first : Point) (initial : Area) :
    Agree (Alike R) (prog.walk P first initial) (prog.walk Q first initial) :=
  (reach_agree h first initial).bind fun _ => run_agree h _

end Walk

end YieldPlan
