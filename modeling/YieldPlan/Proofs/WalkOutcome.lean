import YieldPlan.Proofs.WalkRun

/-! `Ends` states what holds where a computation answers and with which failures it may stop. It
follows the steps of a computation, and a walk inherits it from the runs of its blocks: what every
arrival keeps, the whole walk keeps. -/

namespace YieldPlan

namespace Checked

variable {α β : Type} {Q : α → Prop} {E : Failure → Prop}

def Ends (x : Checked α) (Q : α → Prop) (E : Failure → Prop) : Prop :=
  match x with
  | .ok a => Q a
  | .error e => E e

theorem Ends.of_ok {x : Checked α} {a : α} (h : x = .ok a) (hq : Q a) : x.Ends Q E := by
  rw [h]
  exact hq

theorem Ends.of_eq {x : Checked α} (h : x.Ends Q E) {a : α} (hx : x = .ok a) : Q a := by
  rw [hx] at h
  exact h

theorem Ends.bind {R : β → Prop} {x : Checked α} {f : α → Checked β} (h : x.Ends Q E)
    (hf : ∀ a, x = .ok a → Q a → (f a).Ends R E) : (x >>= f).Ends R E := by
  cases x with
  | ok a => exact hf a rfl h
  | error e => exact h

theorem Ends.bind_ok {R : β → Prop} {x : Checked α} {f : α → Checked β} {a : α} (h : x = .ok a)
    (hf : (f a).Ends R E) : (x >>= f).Ends R E := by
  rw [h]
  exact hf

theorem ends_iff {x : Checked α} :
    x.Ends Q E ↔ (∃ a, x = .ok a ∧ Q a) ∨ ∃ e, x = .error e ∧ E e := by
  cases x <;> simp [Ends]

end Checked

namespace Action

variable {σ α β : Type} {Q : α → σ → Prop} {E : Failure → Prop} {s : σ}

def Ends (x : Action σ α) (s : σ) (Q : α → σ → Prop) (E : Failure → Prop) : Prop :=
  match x s with
  | .ok a s' => Q a s'
  | .error e _ => E e

theorem Ends.of_ok {x : Action σ α} {a : α} {s' : σ} (h : x s = .ok a s') (hq : Q a s') :
    x.Ends s Q E := by
  unfold Ends
  rw [h]
  exact hq

theorem Ends.ok {x : Action σ α} (h : x.Ends s Q fun _ => False) :
    ∃ a s', x s = .ok a s' ∧ Q a s' := by
  unfold Ends at h
  cases hx : x s with
  | ok a s' =>
    rw [hx] at h
    exact ⟨a, s', rfl, h⟩
  | error e s' =>
    rw [hx] at h
    exact h.elim

theorem Ends.of_eq {x : Action σ α} (h : x.Ends s Q E) {a : α} {s' : σ} (hx : x s = .ok a s') :
    Q a s' := by
  unfold Ends at h
  rw [hx] at h
  exact h

theorem Ends.mono {Q' : α → σ → Prop} {x : Action σ α} (h : x.Ends s Q E)
    (hq : ∀ a s', x s = .ok a s' → Q a s' → Q' a s') : x.Ends s Q' E := by
  unfold Ends at h ⊢
  cases hx : x s with
  | ok a s' =>
    rw [hx] at h
    exact hq a s' hx h
  | error e s' =>
    rw [hx] at h
    exact h

theorem Ends.bind {R : β → σ → Prop} {x : Action σ α} {f : α → Action σ β} (h : x.Ends s Q E)
    (hf : ∀ a s', Q a s' → (f a).Ends s' R E) : (x >>= f).Ends s R E := by
  show match EStateM.bind x f s with | .ok b s' => R b s' | .error e _ => E e
  unfold Ends at h
  unfold EStateM.bind
  cases hx : x s with
  | ok a s' =>
    rw [hx] at h
    exact hf a s' h
  | error e s' =>
    rw [hx] at h
    exact h

theorem Ends.bind_ok {R : β → σ → Prop} {x : Action σ α} {f : α → Action σ β} {a : α} {t : σ}
    (h : x s = .ok a t) (hf : (f a).Ends t R E) : (x >>= f).Ends s R E := by
  refine Ends.bind (Q := fun b u => b = a ∧ u = t) (.of_ok h ⟨rfl, rfl⟩) ?_
  rintro _ _ ⟨rfl, rfl⟩
  exact hf

theorem ends_pure {a : α} (h : Q a s) : (pure a : Action σ α).Ends s Q E := h

theorem ends_check {x : Checked α} (hok : ∀ a, x = .ok a → Q a s)
    (herr : ∀ e, x = .error e → E e) : (check x : Action σ α).Ends s Q E := by
  cases x with
  | ok a => exact hok a rfl
  | error e => exact herr e rfl

end Action

namespace Walk

open YieldPlan.Action

variable {σ : Type} {prog : Program} {P : Processor σ} {E : Failure → Prop}

theorem lift_ends {α : Type} {x : Action σ α} {w : Walk σ} {Q : α → Walk σ → Prop}
    (h : x.Ends w.state (fun a s => Q a { w with state := s }) E) : (lift x).Ends w Q E := by
  unfold Ends at h ⊢
  unfold lift
  cases hx : x w.state <;> simpa [hx] using h

/-- A point is reached safely: `S` holds of the state and the recorded areas, `V` of a point and the
area in which it is reached. Every exploration keeps `S` and reaches its successors as `V` says. -/
structure Safe (prog : Program) (P : Processor σ) (S : σ → Table Point Area → Prop)
    (V : Point → Area → Prop) (E : Failure → Prop) : Prop where
  revisit : ∀ {w : Walk σ} {p r a} edge, S w.state w.areas → V p a → w.areas.get? p = some r →
    r.join a ≠ r → (P.revisit p r a edge).Ends w.state (fun _ _ => True) E
  explore : ∀ {w : Walk σ} {p a area s}, S w.state w.areas → V p a → Admits P w p a area s →
    ∃ ops, p.ops? prog = some ops ∧
      (runBlock prog P (prog.block p.block) area [] ops).Ends s
        (fun x s' => S s' (w.areas.put p area) ∧ ∀ q ∈ x.2, V q x.1) E

structure Steady (S : σ → Table Point Area → Prop) (V : Point → Area → Prop) (w : Walk σ) :
    Prop where
  kept : S w.state w.areas
  pending : ∀ f ∈ w.stack, ∀ q ∈ f.pending, V q f.out

variable {S : σ → Table Point Area → Prop} {V : Point → Area → Prop}

theorem enter_ends (h : Safe prog P S V E) {w : Walk σ} {p : Point} {a : Area}
    (hs : S w.state w.areas) (hv : V p a) :
    (enter P p a).Ends w (fun x w' => enter P p a w = .ok x w') E := by
  suffices hend : (enter P p a).Ends w (fun _ _ => True) E from hend.mono fun _ _ hx _ => hx
  refine .bind_ok (t := w) rfl ?_
  cases hr : w.areas.get? p with
  | none => exact .of_ok rfl trivial
  | some r =>
    by_cases hj : r.join a = r
    · by_cases hmem : p ∈ w.visited
      · simp only [hj, hmem, ne_eq, not_true_eq_false, ↓reduceIte]
        exact ends_pure trivial
      · simp only [hj, hmem, ne_eq, not_true_eq_false, ↓reduceIte]
        exact .of_ok rfl trivial
    · simp only [hj, ne_eq, not_false_eq_true, ↓reduceIte]
      refine .bind (lift_ends (Q := fun _ _ => True) (h.revisit _ hs hv hr hj)) ?_
      intro _ _ _
      exact .of_ok rfl trivial

theorem reach_ends (h : Safe prog P S V E) {w : Walk σ} {p : Point} {a : Area}
    (hw : Steady S V w) (hv : V p a) :
    (reach prog P p a).Ends w (fun _ w' => Steady S V w') E := by
  refine .bind (enter_ends h hw.kept hv) ?_
  intro x w₁ hx
  rcases enter_cases hx with ⟨rfl, rfl, -⟩ | ⟨area, s, rfl, hadmits, rfl⟩
  · exact ends_pure hw
  obtain ⟨ops, hops, hrun⟩ := h.explore hw.kept hv hadmits
  refine .bind (Q := fun _ w' => Steady S V w') ?_ fun _ _ hw' => ends_pure hw'
  refine .bind_ok (Action.check_ok.mpr ⟨Checked.index_ok.mpr hops, rfl⟩) ?_
  rw [runOps_eq_lift]
  refine .bind (Q := fun x w' => S w'.state w'.areas ∧ w'.stack = w.stack ∧ ∀ q ∈ x.2, V q x.1)
    (lift_ends (hrun.mono ?_)) ?_
  · rintro x s' - ⟨hkept, hnext⟩
    exact ⟨hkept, rfl, hnext⟩
  · rintro ⟨out, next⟩ w₂ ⟨hkept, hstack, hnext⟩
    refine .of_ok rfl ⟨hkept, ?_⟩
    intro f hf q hq
    rcases List.mem_cons.mp hf with rfl | hf
    · exact hnext q hq
    · exact hw.pending f (hstack ▸ hf) q hq

theorem step_ends (h : Safe prog P S V E) {w : Walk σ} (hw : Steady S V w) :
    (step prog P).Ends w (fun _ w' => Steady S V w') E := by
  refine .bind_ok (t := w) rfl ?_
  cases hs : w.stack with
  | nil => exact ends_pure hw
  | cons f rest =>
    have hrest : ∀ g ∈ rest, ∀ q ∈ g.pending, V q g.out :=
      fun g hg => hw.pending g (by simp [hs, hg])
    have hf : ∀ q ∈ f.pending, V q f.out := hw.pending f (by simp [hs])
    cases hp : f.pending with
    | nil =>
      simp only [hp]
      exact .of_ok rfl ⟨hw.kept, hrest⟩
    | cons p pending =>
      simp only [hp]
      refine .bind_ok (t := { w with stack := { f with pending } :: rest }) rfl ?_
      refine .bind (reach_ends h ⟨hw.kept, ?_⟩ (hf p (by simp [hp]))) fun _ _ hw' => ends_pure hw'
      intro g hg q hq
      rcases List.mem_cons.mp hg with rfl | hg
      · exact hf q (by rw [hp]; exact List.mem_cons_of_mem _ hq)
      · exact hrest g hg q hq

theorem drain_ends (h : Safe prog P S V E) {next : Action (Walk σ) Unit}
    (hnext : ∀ w, Steady S V w → next.Ends w (fun _ w' => Steady S V w') E) (fuel : Nat)
    {w : Walk σ} (hw : Steady S V w) :
    (drain prog P next fuel).Ends w (fun _ w' => Steady S V w') E := by
  induction fuel generalizing w with
  | zero => exact ends_pure hw
  | succ fuel ih =>
    rw [drain]
    refine .bind (step_ends h hw) ?_
    intro progress w' hw'
    cases progress with
    | done => exact ends_pure hw'
    | moved => exact ih hw'
    | explored => exact hnext w' hw'

theorem run_ends (h : Safe prog P S V E) (budget : Nat) {w : Walk σ} (hw : Steady S V w) :
    (run prog P budget).Ends w (fun _ w' => Steady S V w') E := by
  induction budget generalizing w with
  | zero => exact ends_pure hw
  | succ budget ih =>
    rw [run]
    exact .bind_ok (t := w) rfl (drain_ends h (fun _ => ih) _ hw)

/-- A safe walk keeps what holds of its state and the recorded areas. -/
theorem walk_ends (h : Safe prog P S V E) {first : Point} {initial : Area} {w : Walk σ}
    (hstack : w.stack = []) (hs : S w.state w.areas) (hv : V first initial) :
    (prog.walk P first initial).Ends w (fun _ w' => S w'.state w'.areas) E := by
  have hw : Steady S V w := ⟨hs, by simp [hstack]⟩
  refine .bind (reach_ends h hw hv) ?_
  intro _ w' hw'
  exact (run_ends h _ hw').mono fun _ _ _ hend => hend.kept

end Walk

end YieldPlan
