import YieldPlan.Proofs.WalkCoverage
import Mathlib.Order.Bounds.Defs
import Mathlib.Order.Notation

/-! For a processor without state that never fails, whose successors do not depend on the area and
whose areas depend on it monotonically, the areas recorded by a walk are the least ones that extend
those recorded before, hold the initial area at the first point and are closed under running every
point that the first point leads to. So they do not depend on the order in which successors are
listed. -/

namespace YieldPlan

theorem recorded_le_iff {x y : Option Area} :
    x ≤ y ↔ ∀ a, x = some a → ∃ b, y = some b ∧ a ≤ b := by
  cases x with
  | none => cases y <;> simp [LE.le, Option.le]
  | some a =>
    cases y with
    | none => simp [LE.le, Option.le]
    | some b =>
      constructor
      · intro h c hc
        cases hc
        exact ⟨b, rfl, h⟩
      · intro h
        obtain ⟨c, hc, hac⟩ := h a rfl
        cases hc
        exact hac

theorem recorded_le_antisymm {x y : Option Area} (h : x ≤ y) (k : y ≤ x) : x = y := by
  cases x with
  | none =>
    cases y with
    | none => rfl
    | some b =>
      obtain ⟨c, hc, -⟩ := recorded_le_iff.mp k b rfl
      cases hc
  | some a =>
    obtain ⟨b, rfl, hab⟩ := recorded_le_iff.mp h a rfl
    exact congrArg some (Area.le_antisymm hab k)

namespace Effects

/-- Whether and where a step jumps does not depend on the area. -/
def Uniform (e : Effects) : Prop := ∀ o a b, (e.visit o a).points? = (e.visit o b).points?

def Monotone (e : Effects) : Prop := ∀ o a b, a ≤ b → (e.visit o a).area ≤ (e.visit o b).area

/-- The area that a run from a point leaves behind. -/
def out (prog : Program) (e : Effects) (p : Point) (a : Area) : Area := (e.runAt prog p a).1

/-- The points that follow a point, in the order in which they are entered. -/
def next (prog : Program) (e : Effects) (p : Point) : List Point := (e.runAt prog p .pre).2

def Reaches (prog : Program) (e : Effects) : Point → Point → Prop :=
  Relation.ReflTransGen fun p q => q ∈ e.next prog p

/-- Areas that extend `M`, hold the initial area and are closed under running the points that the
first one leads to. -/
structure IsClosed (prog : Program) (e : Effects) (first : Point) (initial : Area)
    (M N : Point → Option Area) : Prop where
  above : M ≤ N
  holds : some initial ≤ N first
  step : ∀ p, e.Reaches prog first p → ∀ a, N p = some a →
    ∀ q ∈ e.next prog p, some (e.out prog p a) ≤ N q

variable {prog : Program} {e : Effects}

theorem visit_cases (hu : e.Uniform) (o : OpId) (a b : Area) :
    (∃ c d, e.visit o a = .continue c ∧ e.visit o b = .continue d) ∨
    ∃ c d points, e.visit o a = .jump c points ∧ e.visit o b = .jump d points := by
  have h := hu o a b
  cases ha : e.visit o a with
  | «continue» c =>
    cases hb : e.visit o b with
    | «continue» d => exact .inl ⟨c, d, rfl, rfl⟩
    | jump d points => simp [ha, hb, Step.points?] at h
  | jump c points =>
    cases hb : e.visit o b with
    | «continue» d => simp [ha, hb, Step.points?] at h
    | jump d points' =>
      simp only [ha, hb, Step.points?, Option.some.injEq] at h
      exact .inr ⟨c, d, points, rfl, h ▸ rfl⟩

theorem run_mono (hu : e.Uniform) (hm : e.Monotone) (b : Block) (ops : List OpId)
    (succs : List Point) {a a' : Area} (h : a ≤ a') :
    (e.run prog b a succs ops).1 ≤ (e.run prog b a' succs ops).1 ∧
      (e.run prog b a succs ops).2 = (e.run prog b a' succs ops).2 := by
  induction ops generalizing succs a a' with
  | nil => exact ⟨h, rfl⟩
  | cons o rest ih =>
    have hle := hm o a a' h
    rcases visit_cases hu o a a' with ⟨c, d, hc, hd⟩ | ⟨c, d, points, hc, hd⟩
    · rw [hc, hd] at hle
      cases hk : (prog.kind o).callee? with
      | none =>
        rw [run_continue hc hk, run_continue hd hk]
        exact ih _ hle
      | some callee =>
        have hcall : prog.kind o = .call callee := OpKind.callee?_eq_some.mp hk
        rw [run_call hc hcall, run_call hd hcall]
        exact ⟨hle, rfl⟩
    · rw [hc, hd] at hle
      rw [run_jump hc, run_jump hd]
      exact ⟨hle, rfl⟩

theorem out_mono (hu : e.Uniform) (hm : e.Monotone) (p : Point) {a b : Area} (h : a ≤ b) :
    e.out prog p a ≤ e.out prog p b := (run_mono hu hm _ _ _ h).1

theorem runAt_next (hu : e.Uniform) (hm : e.Monotone) (p : Point) (a : Area) :
    (e.runAt prog p a).2 = e.next prog p := by
  have htop : ∀ b : Area, b ≤ .top := by intro b; cases b <;> decide
  exact (run_mono hu hm _ _ _ (htop a)).2.trans (run_mono hu hm _ _ _ (htop .pre)).2.symm

end Effects

structure Processor.Pure {σ : Type} (P : Processor σ) (e : Effects) : Prop where
  visit : ∀ o a s, P.visit o a s = .ok (e.visit o a) s
  afterCall : ∀ o f q s, P.afterCall o f q s = .ok (e.afterCall o f q) s
  afterReturn : ∀ f s, P.afterReturn f s = .ok (e.afterReturn f) s
  revisit : ∀ p r a edge s, P.revisit p r a edge s = .ok () s

theorem Processor.Pure.follows {σ : Type} {P : Processor σ} {e : Effects} (h : P.Pure e) :
    P.Follows e where
  visit hv := by rw [h.visit] at hv; cases hv; rfl
  afterCall hv := by rw [h.afterCall] at hv; cases hv; rfl
  afterReturn hv := by rw [h.afterReturn] at hv; cases hv; rfl

theorem Processor.respects_true {σ : Type} (P : Processor σ) : P.Respects fun _ _ => True :=
  ⟨fun _ => trivial, fun _ _ => trivial, fun _ => trivial, fun _ => trivial, fun _ => trivial,
    fun _ => trivial⟩

namespace Walk

variable {σ : Type} {prog : Program} {P : Processor σ} {e : Effects}

theorem follow_pure (hP : P.Pure e) (b : Block) (succs : List Point) (k : OpKind) (s : σ) :
    follow P b succs k s = .ok (e.follow b succs k) s := by
  cases k with
  | terminator t =>
    cases t with
    | branch => rfl
    | ret => exact hP.afterReturn _ _
  | _ => rfl

theorem runBlock_pure (hP : P.Pure e) (b : Block) (a : Area) (succs : List Point)
    (ops : List OpId) (s : σ) :
    runBlock prog P b a succs ops s = .ok (e.run prog b a succs ops) s := by
  induction ops generalizing a succs with
  | nil => rfl
  | cons o rest ih =>
    rw [runBlock, Effects.run]
    refine Action.bind_ok.mpr ⟨_, _, hP.visit o a s, ?_⟩
    cases e.visit o a with
    | jump c points => rfl
    | «continue» c =>
      cases hk : prog.kind o with
      | call callee => exact Action.bind_ok.mpr ⟨_, _, hP.afterCall _ _ _ _, rfl⟩
      | _ => exact Action.bind_ok.mpr ⟨_, _, follow_pure hP b succs _ s, ih c _⟩

theorem bind_total {α β : Type} {x : Action σ α} {f : α → Action σ β} {s : σ}
    (h : ∃ a t, x s = .ok a t ∧ ∃ b u, f a t = .ok b u) : ∃ b u, (x >>= f) s = .ok b u := by
  obtain ⟨a, t, hx, b, u, hf⟩ := h
  exact ⟨b, u, Action.bind_ok.mpr ⟨a, t, hx, hf⟩⟩

theorem enter_total (hP : P.Pure e) (p : Point) (a : Area) (w : Walk σ) :
    ∃ x w', enter P p a w = .ok x w' := by
  refine bind_total ⟨w, w, rfl, ?_⟩
  cases hr : w.areas.get? p with
  | none => exact ⟨_, _, rfl⟩
  | some r =>
    by_cases hj : r.join a = r
    · by_cases hv : p ∈ w.visited
      · simp only [hj, hv, ne_eq, not_true_eq_false, ↓reduceIte]
        exact ⟨_, _, rfl⟩
      · simp only [hj, hv, ne_eq, not_true_eq_false, ↓reduceIte]
        exact ⟨_, _, rfl⟩
    · simp only [hj, ne_eq, not_false_eq_true, ↓reduceIte]
      refine bind_total ⟨(), w, lift_ok.mpr ⟨_, hP.revisit _ _ _ _ _, rfl⟩, ?_⟩
      exact ⟨_, _, rfl⟩

theorem explore_total (hP : P.Pure e) {p : Point} {ops : List OpId} (ho : p.ops? prog = some ops)
    (a : Area) (w : Walk σ) : ∃ u w', explore prog P p a w = .ok u w' := by
  refine bind_total ⟨ops, w, Action.check_ok.mpr ⟨Checked.index_ok.mpr ho, rfl⟩, ?_⟩
  refine bind_total ⟨e.run prog (prog.block p.block) a [] ops, w, ?_, ⟨_, _, rfl⟩⟩
  rw [runOps_eq_lift]
  exact lift_ok.mpr ⟨_, runBlock_pure hP _ _ _ _ _, rfl⟩

theorem reach_total (hP : P.Pure e) {p : Point} {ops : List OpId} (ho : p.ops? prog = some ops)
    (a : Area) (w : Walk σ) : ∃ b w', reach prog P p a w = .ok b w' := by
  obtain ⟨x, v, hx⟩ := enter_total hP p a w
  refine bind_total ⟨x, v, hx, ?_⟩
  cases x with
  | none => exact ⟨false, v, rfl⟩
  | some area =>
    obtain ⟨u, v', hv⟩ := explore_total hP ho area v
    exact bind_total ⟨u, v', hv, ⟨_, _, rfl⟩⟩

theorem run_total {Inv : Walk σ → Prop}
    (hstep : ∀ w, Inv w → ∃ pr w', step prog P w = .ok pr w' ∧ Inv w') (budget : Nat)
    {w : Walk σ} (hw : Inv w) : ∃ w', run prog P budget w = .ok () w' := by
  induction budget generalizing w with
  | zero => exact ⟨w, rfl⟩
  | succ budget ih =>
    have hdrain : ∀ fuel v, Inv v → ∃ w', drain prog P (run prog P budget) fuel v = .ok () w' := by
      intro fuel
      induction fuel with
      | zero => exact fun v _ => ⟨v, rfl⟩
      | succ fuel ihf =>
        intro v hv
        obtain ⟨pr, u, hs, hu⟩ := hstep v hv
        rw [drain]
        cases pr with
        | done => exact ⟨u, Action.bind_ok.mpr ⟨_, u, hs, rfl⟩⟩
        | moved =>
          obtain ⟨w', hw'⟩ := ihf u hu
          exact ⟨w', Action.bind_ok.mpr ⟨_, u, hs, hw'⟩⟩
        | explored =>
          obtain ⟨w', hw'⟩ := ih hu
          exact ⟨w', Action.bind_ok.mpr ⟨_, u, hs, hw'⟩⟩
    obtain ⟨w', h⟩ := hdrain (weight w.stack + 1) w hw
    exact ⟨w', Action.bind_ok.mpr ⟨w, w, rfl, h⟩⟩

/-- All recorded areas are below `N`, and so are those in which points wait to be entered. -/
structure Below (prog : Program) (e : Effects) (first : Point) (N : Point → Option Area)
    (w : Walk σ) : Prop where
  areas : ∀ p, w.areas.get? p ≤ N p
  pending : ∀ f ∈ w.stack, ∀ q ∈ f.pending, e.Reaches prog first q ∧ some f.out ≤ N q

variable {first : Point} {initial : Area} {M N : Point → Option Area}

theorem Admits.below {w : Walk σ} {p : Point} {a area : Area} {s : σ} (h : Admits P w p a area s)
    (hr : w.areas.get? p ≤ N p) (ha : some a ≤ N p) : some area ≤ N p := by
  cases h with
  | absent => exact ha
  | @enlarged r _ hr' =>
    obtain ⟨n, hn, hle⟩ := recorded_le_iff.mp ha a rfl
    obtain ⟨n', hn', hle'⟩ := recorded_le_iff.mp hr r hr'
    obtain rfl : n = n' := Option.some.inj (hn.symm.trans hn')
    rw [hn]
    exact Area.join_le hle' hle
  | fresh hr' => exact hr' ▸ hr

theorem reach_below (hP : P.Follows e) (hu : e.Uniform) (hm : e.Monotone)
    (hN : e.IsClosed prog first initial M N) {w w' : Walk σ} {p : Point} {a : Area} {b : Bool}
    (h : reach prog P p a w = .ok b w') (hw : Below prog e first N w)
    (hp : e.Reaches prog first p) (ha : some a ≤ N p) : Below prog e first N w' := by
  rcases reach_cases h with ⟨-, rfl, -⟩ |
    ⟨-, area, s, ops, out, pending, s', had, ho, hrun, rfl⟩
  · exact hw
  · have harea : some area ≤ N p := had.below (hw.areas p) ha
    have hx : (out, pending) = e.runAt prog p area := by
      rw [Effects.runAt, ho]
      exact runBlock_follows hP hrun
    constructor
    · intro q
      by_cases hq : q = p
      · subst hq
        simpa [explored, Table.get?_put] using harea
      · simpa [explored, Table.get?_put, hq] using hw.areas q
    · intro f hf q hq
      rcases List.mem_cons.mp hf with rfl | hf
      · have hq : q ∈ e.next prog p := by
          rw [← Effects.runAt_next hu hm p area, ← hx]
          exact hq
        refine ⟨hp.tail hq, ?_⟩
        obtain ⟨n, hn, hle⟩ := recorded_le_iff.mp harea area rfl
        obtain ⟨c, hc, hlast⟩ := recorded_le_iff.mp (hN.step p hp n hn q hq) _ rfl
        have hout : out = e.out prog p area := congrArg Prod.fst hx
        rw [hc]
        exact Area.le_trans (hout ▸ Effects.out_mono hu hm p hle) hlast
      · exact hw.pending f hf q hq

theorem Below.move (hP : P.Follows e) (hu : e.Uniform) (hm : e.Monotone)
    (hN : e.IsClosed prog first initial M N) {w w' : Walk σ} (hw : Below prog e first N w)
    (h : Moves prog P w w') : Below prog e first N w' := by
  obtain ⟨pr, h⟩ := h
  rcases step_cases h with ⟨-, -, rfl⟩ | ⟨f, rest, hs, -, -, rfl⟩ |
    ⟨f, rest, p, pending, b, hs, hp, hr, -⟩
  · exact hw
  · exact ⟨hw.areas, fun g hg => hw.pending g (by rw [hs]; exact List.mem_cons_of_mem _ hg)⟩
  · have hf : ∀ q ∈ f.pending, e.Reaches prog first q ∧ some f.out ≤ N q :=
      hw.pending f (by simp [hs])
    obtain ⟨hreach, hle⟩ := hf p (by simp [hp])
    refine reach_below hP hu hm hN hr ⟨hw.areas, ?_⟩ hreach hle
    intro g hg q hq
    rcases List.mem_cons.mp hg with rfl | hg
    · exact hf q (by rw [hp]; exact List.mem_cons_of_mem _ hq)
    · exact hw.pending g (by rw [hs]; exact List.mem_cons_of_mem _ hg) q hq

theorem le_top (x : Option Area) : x ≤ some .top := by
  apply recorded_le_iff.mpr
  intro a _
  exact ⟨.top, rfl, by cases a <;> decide⟩

theorem isClosed_top (first : Point) (initial : Area) (M : Point → Option Area) :
    e.IsClosed prog first initial M fun _ => some .top :=
  ⟨fun _ => le_top _, le_top _, fun _ _ _ _ _ _ => le_top _⟩

theorem step_total (hP : P.Pure e) (hu : e.Uniform) (hm : e.Monotone)
    (hvalid : ∀ p, e.Reaches prog first p → ∃ ops, p.ops? prog = some ops) {w : Walk σ}
    (hw : Below prog e first (fun _ => some .top) w) :
    ∃ pr w', step prog P w = .ok pr w' ∧ Below prog e first (fun _ => some .top) w' := by
  have htotal : ∃ pr w', step prog P w = .ok pr w' := by
    refine bind_total ⟨w, w, rfl, ?_⟩
    cases hs : w.stack with
    | nil => exact ⟨_, _, rfl⟩
    | cons f rest =>
      cases hp : f.pending with
      | nil =>
        simp only [hp]
        exact ⟨_, _, rfl⟩
      | cons p pending =>
        simp only [hp]
        obtain ⟨hreach, -⟩ := hw.pending f (by simp [hs]) p (by simp [hp])
        obtain ⟨ops, ho⟩ := hvalid p hreach
        obtain ⟨b, w', hr⟩ := reach_total hP ho f.out { w with stack := { f with pending } :: rest }
        exact bind_total ⟨(), _, rfl, bind_total ⟨b, w', hr, ⟨_, _, rfl⟩⟩⟩
  obtain ⟨pr, w', h⟩ := htotal
  exact ⟨pr, w', h, hw.move hP.follows hu hm (isClosed_top first .pre fun _ => none) ⟨pr, h⟩⟩

theorem walk_total (hP : P.Pure e) (hu : e.Uniform) (hm : e.Monotone)
    (hvalid : ∀ p, e.Reaches prog first p → ∃ ops, p.ops? prog = some ops) (s : σ)
    (areas : Table Point Area) :
    ∃ w, prog.walk P first initial { state := s, areas } = .ok () w := by
  obtain ⟨ops, ho⟩ := hvalid first .refl
  obtain ⟨b, v, hr⟩ := reach_total hP ho initial { state := s, areas }
  have hv : Below prog e first (fun _ => some .top) v :=
    reach_below hP.follows hu hm (isClosed_top first initial fun _ => none) hr
      ⟨fun _ => le_top _, by simp⟩ .refl (le_top _)
  obtain ⟨w, hw⟩ := run_total (fun w => step_total hP hu hm hvalid)
    (2 * prog.pointCount + 1) hv
  exact ⟨w, Action.bind_ok.mpr ⟨b, v, hr, hw⟩⟩

theorem walk_visits (hP : P.Follows e) (hu : e.Uniform) (hm : e.Monotone) {w w' : Walk σ}
    (hv : w.visited = []) (h : prog.walk P first initial w = .ok () w') {p : Point}
    (hp : e.Reaches prog first p) :
    p ∈ w'.visited ∧ ∃ a ops, w'.areas.get? p = some a ∧ p.ops? prog = some ops ∧
      ∀ q ∈ e.next prog p, w'.Settled (e.out prog p a) q := by
  obtain ⟨-, -, hfirst, hrun⟩ := walk_covers P.respects_true hv h
  have hran : ∀ p ∈ w'.visited, ∃ a ops, w'.areas.get? p = some a ∧ p.ops? prog = some ops ∧
      ∀ q ∈ e.next prog p, w'.Settled (e.out prog p a) q := by
    intro p hp
    obtain ⟨a, ops, out, next, s, s', ha, ho, hrun, -, hnext⟩ := hrun p hp
    have hx : (out, next) = e.runAt prog p a := by
      rw [Effects.runAt, ho]
      exact runBlock_follows hP hrun
    refine ⟨a, ops, ha, ho, fun q hq => ?_⟩
    rw [← Effects.runAt_next hu hm p a, ← hx] at hq
    have hout : e.out prog p a = out := (congrArg Prod.fst hx).symm
    rw [hout]
    exact hnext q hq
  have hmem : p ∈ w'.visited := by
    induction hp with
    | refl => exact hfirst.1
    | tail _ hq ih =>
      obtain ⟨a, ops, -, -, hs⟩ := hran _ ih
      exact (hs _ hq).1
  exact ⟨hmem, hran p hmem⟩

theorem walk_isClosed (hP : P.Follows e) (hu : e.Uniform) (hm : e.Monotone) {s : σ}
    {areas : Table Point Area} {w : Walk σ}
    (h : prog.walk P first initial { state := s, areas } = .ok () w) :
    e.IsClosed prog first initial areas.get? w.areas.get? := by
  obtain ⟨hext, -, hfirst, -⟩ := walk_covers P.respects_true rfl h
  refine ⟨fun p => recorded_le_iff.mpr (hext.areas p), ?_, ?_⟩
  · obtain ⟨-, b, hb, hle⟩ := hfirst
    rw [hb]
    exact hle
  · intro p hp a ha q hq
    obtain ⟨-, a', ops, ha', -, hs⟩ := walk_visits hP hu hm rfl h hp
    obtain rfl : a = a' := Option.some.inj (ha.symm.trans ha')
    obtain ⟨-, b, hb, hle⟩ := hs q hq
    rw [hb]
    exact hle

theorem walk_below (hP : P.Follows e) (hu : e.Uniform) (hm : e.Monotone) {s : σ}
    {areas : Table Point Area} {w : Walk σ}
    (h : prog.walk P first initial { state := s, areas } = .ok () w)
    (hN : e.IsClosed prog first initial areas.get? N) : w.areas.get? ≤ N := by
  have hw : Below prog e first N w := by
    apply walk_induction h
    · exact fun b v hr => reach_below hP hu hm hN hr ⟨hN.above, by simp⟩ .refl hN.holds
    · exact fun v u hv hmove => hv.move hP hu hm hN hmove
  exact hw.areas

theorem walk_isLeast (hP : P.Follows e) (hu : e.Uniform) (hm : e.Monotone) {s : σ}
    {areas : Table Point Area} {w : Walk σ}
    (h : prog.walk P first initial { state := s, areas } = .ok () w) :
    IsLeast {N | e.IsClosed prog first initial areas.get? N} w.areas.get? :=
  ⟨walk_isClosed hP hu hm h, fun _ hN => walk_below hP hu hm h hN⟩

end Walk

theorem Effects.IsClosed.reorder {prog prog' : Program} {e e' : Effects} {first : Point}
    {initial : Area} {M N : Point → Option Area} (h : e.IsClosed prog first initial M N)
    (hnext : ∀ p, (e'.next prog' p).Perm (e.next prog p))
    (hout : ∀ p a, e'.out prog' p a = e.out prog p a) :
    e'.IsClosed prog' first initial M N := by
  refine ⟨h.above, h.holds, fun p hp a ha q hq => ?_⟩
  rw [hout]
  refine h.step p ?_ a ha q ((hnext p).mem_iff.mp hq)
  exact Relation.ReflTransGen.mono (fun x y hy => (hnext x).mem_iff.mp hy) _ _ hp

/-- A walk of a pure, uniform and monotone processor returns exactly if all points that it can meet
are points of the program. It then leaves the least areas that extend the recorded ones, hold the
initial area at the first point and are closed under running every point that it can meet; and any
walk with the same runs and reordered successors leaves the same areas. -/
theorem walk_computes_least_fixed_point {σ : Type} (prog : Program) (P : Processor σ) (e : Effects)
    (hP : P.Pure e) (hu : e.Uniform) (hm : e.Monotone) (first : Point) (initial : Area)
    (areas : Table Point Area) (s : σ) :
    ((∃ w, prog.walk P first initial { state := s, areas } = .ok () w) ↔
      ∀ p, e.Reaches prog first p → ∃ ops, p.ops? prog = some ops) ∧
    ∀ w, prog.walk P first initial { state := s, areas } = .ok () w →
      IsLeast {N | e.IsClosed prog first initial areas.get? N} w.areas.get? ∧
      ∀ (τ : Type) (prog' : Program) (P' : Processor τ) (e' : Effects) (s' : τ) (w' : Walk τ),
        P'.Pure e' → e'.Uniform → e'.Monotone →
        (∀ p, (e'.next prog' p).Perm (e.next prog p)) →
        (∀ p a, e'.out prog' p a = e.out prog p a) →
        prog'.walk P' first initial { state := s', areas } = .ok () w' →
        w'.areas.get? = w.areas.get? := by
  refine ⟨⟨?_, fun hvalid => Walk.walk_total hP hu hm hvalid s areas⟩, fun w h =>
    ⟨Walk.walk_isLeast hP.follows hu hm h, ?_⟩⟩
  · rintro ⟨w, h⟩ p hp
    obtain ⟨-, a, ops, -, ho, -⟩ := Walk.walk_visits hP.follows hu hm rfl h hp
    exact ⟨ops, ho⟩
  · intro τ prog' P' e' s' w' hP' hu' hm' hnext hout h'
    obtain ⟨hc, hleast⟩ := Walk.walk_isLeast hP.follows hu hm h
    obtain ⟨hc', hleast'⟩ := Walk.walk_isLeast hP'.follows hu' hm' h'
    funext p
    refine recorded_le_antisymm (hleast' (hc.reorder hnext hout) p) (hleast ?_ p)
    exact Effects.IsClosed.reorder hc' (fun q => (hnext q).symm) fun q a => (hout q a).symm

/-- The processor that answers as the effects say. -/
def Effects.processor (e : Effects) : Processor Unit where
  visit o a := pure (e.visit o a)
  afterCall o f p := pure (e.afterCall o f p)
  afterReturn f := pure (e.afterReturn f)
  revisit _ _ _ _ := pure ()

theorem Effects.processor_pure (e : Effects) : e.processor.Pure e :=
  ⟨fun _ _ _ => rfl, fun _ _ _ _ => rfl, fun _ _ => rfl, fun _ _ _ _ _ => rfl⟩

def Effects.commitsAt (o : OpId) : Effects where
  visit x a := .continue (if x = o then .post else a)
  afterCall _ _ p := [p]
  afterReturn _ := []

def Program.loop : Program where
  procs := #[{ name := "main", blocks := [0, 1], entry := some 0 }]
  blocks := #[{ name := "head", proc := 0, ops := [0, 1], succs := [0, 1] },
    { name := "done", proc := 0, ops := [2] }]
  ops := #[⟨0, 0, .local⟩, ⟨0, 1, .terminator .branch⟩, ⟨1, 0, .terminator .ret⟩]

def Walk.areas? {σ : Type} : EStateM.Result Failure (Walk σ) Unit → Option (Table Point Area)
  | .ok _ w => some w.areas
  | .error _ _ => none

theorem Walk.ok_of_areas? {σ : Type} {r : EStateM.Result Failure (Walk σ) Unit}
    {areas : Table Point Area} (h : areas? r = some areas) :
    ∃ w, r = .ok () w ∧ w.areas = areas := by
  cases r with
  | ok _ w => exact ⟨w, rfl, Option.some.inj h⟩
  | error => cases h

theorem walk_of_loop_is_least :
    ∃ w, Program.loop.walk (Effects.commitsAt 0).processor (.entry 0) .pre { state := () } =
        .ok () w ∧ w.areas.get? (.entry 0) = some .top ∧
      IsLeast {N | (Effects.commitsAt 0).IsClosed Program.loop (.entry 0) .pre
        (Table.get? {}) N} w.areas.get? := by
  have hu : (Effects.commitsAt 0).Uniform := fun _ _ _ => rfl
  have hm : (Effects.commitsAt 0).Monotone := by
    intro o a b h
    simp only [Effects.commitsAt, Step.area]
    split
    · exact Area.le_refl _
    · exact h
  have hrun : Walk.areas? (Program.loop.walk (Effects.commitsAt 0).processor (.entry 0) .pre
      { state := () }) = some ⟨[(.entry 1, .post), (.entry 0, .top)]⟩ := by decide +kernel
  obtain ⟨w, hw, ha⟩ := Walk.ok_of_areas? hrun
  refine ⟨w, hw, by rw [ha]; rfl, ?_⟩
  exact ((walk_computes_least_fixed_point .loop _ _ (Effects.commitsAt 0).processor_pure hu hm
    (.entry 0) .pre {} ()).2 w hw).1

end YieldPlan
