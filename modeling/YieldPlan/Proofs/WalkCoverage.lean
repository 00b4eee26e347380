import YieldPlan.Proofs.WalkRun

/-! A processor may keep a state and may fail, but mostly the areas and points that it answers
depend on its arguments alone. `Effects` is that part of a processor. When a walk ends, every point
that it explored was last run in the area recorded for it, all successors of that run were explored
too, and their recorded areas are above the area that the run left behind. -/

namespace YieldPlan

def Step.area : Step → Area
  | .continue a => a
  | .jump a _ => a

def Step.points? : Step → Option (List Point)
  | .continue _ => none
  | .jump _ points => some points

/-- The steps and successors of a processor as functions of their arguments. -/
structure Effects where
  visit : OpId → Area → Step
  afterCall : OpId → ProcId → Point → List Point
  afterReturn : ProcId → List Point

namespace Effects

/-- The points that follow an operation that does not leave its block, by what followed before it. -/
def follow (e : Effects) (b : Block) (succs : List Point) : OpKind → List Point
  | .terminator .branch => b.succs.map Point.entry
  | .terminator .ret => e.afterReturn b.proc
  | _ => succs

def run (prog : Program) (e : Effects) (b : Block) (area : Area) (succs : List Point) :
    List OpId → Area × List Point
  | [] => (area, succs)
  | o :: rest =>
    match e.visit o area with
    | .jump area points => (area, points)
    | .continue area =>
      match prog.kind o with
      | .call callee => (area, e.afterCall o callee (prog.pointAfter o))
      | kind => run prog e b area (e.follow b succs kind) rest

def runAt (prog : Program) (e : Effects) (p : Point) (area : Area) : Area × List Point :=
  e.run prog (prog.block p.block) area [] ((p.ops? prog).getD [])

variable {prog : Program} {e : Effects} {b : Block} {o : OpId} {rest : List OpId} {a c : Area}
  {succs points : List Point}

theorem run_jump (h : e.visit o a = .jump c points) :
    e.run prog b a succs (o :: rest) = (c, points) := by
  simp only [run, h]

theorem run_call {callee : ProcId} (h : e.visit o a = .continue c)
    (hk : prog.kind o = .call callee) :
    e.run prog b a succs (o :: rest) = (c, e.afterCall o callee (prog.pointAfter o)) := by
  simp only [run, h, hk]

theorem run_continue (h : e.visit o a = .continue c) (hk : (prog.kind o).callee? = none) :
    e.run prog b a succs (o :: rest) =
      e.run prog b c (e.follow b succs (prog.kind o)) rest := by
  simp only [run, h]
  cases hkind : prog.kind o with
  | call callee => simp [hkind, OpKind.callee?] at hk
  | _ => rfl

end Effects

/-- Every answer that the processor gives is the one that `e` gives. -/
structure Processor.Follows {σ : Type} (P : Processor σ) (e : Effects) : Prop where
  visit : ∀ {o a s st s'}, P.visit o a s = .ok st s' → st = e.visit o a
  afterCall : ∀ {o f q s l s'}, P.afterCall o f q s = .ok l s' → l = e.afterCall o f q
  afterReturn : ∀ {f s l s'}, P.afterReturn f s = .ok l s' → l = e.afterReturn f

structure Processor.Respects {σ : Type} (P : Processor σ) (R : σ → σ → Prop) : Prop where
  refl : ∀ s, R s s
  trans : ∀ {s t u}, R s t → R t u → R s u
  visit : ∀ {o a s st s'}, P.visit o a s = .ok st s' → R s s'
  afterCall : ∀ {o f q s l s'}, P.afterCall o f q s = .ok l s' → R s s'
  afterReturn : ∀ {f s l s'}, P.afterReturn f s = .ok l s' → R s s'
  revisit : ∀ {p r a edge s u s'}, P.revisit p r a edge s = .ok u s' → R s s'

/-- The state moves along a relation while operations run, whatever happens between the runs. -/
structure Processor.Runs {σ : Type} (P : Processor σ) (R : σ → σ → Prop) : Prop where
  refl : ∀ s, R s s
  trans : ∀ {s t u}, R s t → R t u → R s u
  visit : ∀ {o a s st s'}, P.visit o a s = .ok st s' → R s s'
  afterCall : ∀ {o f q s l s'}, P.afterCall o f q s = .ok l s' → R s s'
  afterReturn : ∀ {f s l s'}, P.afterReturn f s = .ok l s' → R s s'

theorem Processor.Respects.runs {σ : Type} {P : Processor σ} {R : σ → σ → Prop}
    (h : P.Respects R) : P.Runs R :=
  ⟨h.refl, h.trans, h.visit, h.afterCall, h.afterReturn⟩

namespace Walk

variable {σ : Type} {prog : Program} {P : Processor σ} {e : Effects} {R : σ → σ → Prop}

theorem follow_cases {b : Block} {succs l : List Point} {k : OpKind} {s s' : σ}
    (h : follow P b succs k s = .ok l s') :
    (k = .terminator .branch ∧ l = b.succs.map Point.entry ∧ s' = s) ∨
    (k = .terminator .ret ∧ P.afterReturn b.proc s = .ok l s') ∨
    (k.isTerminator = false ∧ l = succs ∧ s' = s) := by
  cases k with
  | terminator t =>
    cases t with
    | branch =>
      obtain ⟨rfl, rfl⟩ := Action.pure_ok.mp h
      exact .inl ⟨rfl, rfl, rfl⟩
    | ret => exact .inr (.inl ⟨rfl, h⟩)
  | _ =>
    obtain ⟨rfl, rfl⟩ := Action.pure_ok.mp h
    exact .inr (.inr ⟨rfl, rfl, rfl⟩)

/-- What the operations of a block do, one operation at a time: a jump, a call, or any other operation
that the rest of the block comes after. -/
theorem runBlock_cons {b : Block} {o : OpId} {rest : List OpId} {a : Area} {succs : List Point}
    {s s' : σ} {x : Area × List Point} (h : runBlock prog P b a succs (o :: rest) s = .ok x s') :
    (∃ c points, P.visit o a s = .ok (.jump c points) s' ∧ x = (c, points)) ∨
    (∃ c t callee l, P.visit o a s = .ok (.continue c) t ∧ prog.kind o = .call callee ∧
      P.afterCall o callee (prog.pointAfter o) t = .ok l s' ∧ x = (c, l)) ∨
    ∃ c t l u, P.visit o a s = .ok (.continue c) t ∧ (prog.kind o).callee? = none ∧
      follow P b succs (prog.kind o) t = .ok l u ∧
      runBlock prog P b c l rest u = .ok x s' := by
  rw [runBlock] at h
  obtain ⟨st, t, hv, h⟩ := Action.bind_ok.mp h
  cases st with
  | jump c points =>
    obtain ⟨rfl, rfl⟩ := Action.pure_ok.mp h
    exact .inl ⟨c, points, hv, rfl⟩
  | «continue» c =>
    cases hk : prog.kind o with
    | call callee =>
      simp only [hk] at h
      obtain ⟨l, u, hl, h⟩ := Action.bind_ok.mp h
      obtain ⟨rfl, rfl⟩ := Action.pure_ok.mp h
      exact .inr (.inl ⟨c, t, callee, l, hv, rfl, hl, rfl⟩)
    | _ =>
      simp only [hk] at h
      obtain ⟨l, u, hl, h⟩ := Action.bind_ok.mp h
      exact .inr (.inr ⟨c, t, l, u, hv, rfl, hl, h⟩)

theorem follow_follows (hP : P.Follows e) {b : Block} {succs l : List Point} {k : OpKind} {s s' : σ}
    (h : follow P b succs k s = .ok l s') : l = e.follow b succs k := by
  rcases follow_cases h with ⟨rfl, rfl, -⟩ | ⟨rfl, hret⟩ | ⟨hk, rfl, -⟩
  · rfl
  · exact hP.afterReturn hret
  · cases k with
    | terminator t => cases hk
    | _ => rfl

theorem runBlock_follows (hP : P.Follows e) {b : Block} {ops : List OpId} {a : Area}
    {succs : List Point} {s s' : σ} {x : Area × List Point}
    (h : runBlock prog P b a succs ops s = .ok x s') : x = e.run prog b a succs ops := by
  induction ops generalizing a succs s with
  | nil => exact (Action.pure_ok.mp h).1.symm
  | cons o rest ih =>
    rcases runBlock_cons h with ⟨c, points, hv, rfl⟩ | ⟨c, t, callee, l, hv, hk, hl, rfl⟩ |
      ⟨c, t, l, u, hv, hk, hl, hrest⟩
    · exact (Effects.run_jump (hP.visit hv).symm).symm
    · rw [Effects.run_call (hP.visit hv).symm hk, hP.afterCall hl]
    · rw [Effects.run_continue (hP.visit hv).symm hk, ← follow_follows hP hl]
      exact ih hrest

theorem follow_runs (hR : P.Runs R) {b : Block} {succs l : List Point} {k : OpKind} {s s' : σ}
    (h : follow P b succs k s = .ok l s') : R s s' := by
  rcases follow_cases h with ⟨-, -, rfl⟩ | ⟨-, hret⟩ | ⟨-, -, rfl⟩
  · exact hR.refl _
  · exact hR.afterReturn hret
  · exact hR.refl _

theorem runBlock_runs (hR : P.Runs R) {b : Block} {ops : List OpId} {a : Area} {succs : List Point}
    {s s' : σ} {x : Area × List Point} (h : runBlock prog P b a succs ops s = .ok x s') :
    R s s' := by
  induction ops generalizing a succs s with
  | nil => exact (Action.pure_ok.mp h).2 ▸ hR.refl s
  | cons o rest ih =>
    rcases runBlock_cons h with ⟨c, points, hv, -⟩ | ⟨c, t, callee, l, hv, -, hl, -⟩ |
      ⟨c, t, l, u, hv, -, hl, hrest⟩
    · exact hR.visit hv
    · exact hR.trans (hR.visit hv) (hR.afterCall hl)
    · exact hR.trans (hR.trans (hR.visit hv) (follow_runs hR hl)) (ih hrest)

theorem runBlock_respects (hR : P.Respects R) {b : Block} {ops : List OpId} {a : Area}
    {succs : List Point} {s s' : σ} {x : Area × List Point}
    (h : runBlock prog P b a succs ops s = .ok x s') : R s s' :=
  runBlock_runs hR.runs h

theorem runBlock_visits (hR : P.Respects R) {b : Block} {o : OpId} {rest : List OpId} {a : Area}
    {succs : List Point} {s s' : σ} {x : Area × List Point}
    (h : runBlock prog P b a succs (o :: rest) s = .ok x s') :
    ∃ st t, P.visit o a s = .ok st t ∧ R t s' := by
  rcases runBlock_cons h with ⟨c, points, hv, -⟩ | ⟨c, t, callee, l, hv, -, hl, -⟩ |
    ⟨c, t, l, u, hv, -, hl, hrest⟩
  · exact ⟨_, s', hv, hR.refl s'⟩
  · exact ⟨_, t, hv, hR.afterCall hl⟩
  · exact ⟨_, t, hv, hR.trans (follow_runs hR.runs hl) (runBlock_respects hR hrest)⟩

theorem Admits.incoming_le {w : Walk σ} {p : Point} {a area : Area} {s : σ}
    (h : Admits P w p a area s) : a ≤ area := by
  cases h with
  | absent => exact Area.le_refl a
  | @enlarged r => exact Area.le_join_right r a
  | fresh _ hj => exact (Area.join_comm _ _).trans hj

theorem Admits.recorded_le {w : Walk σ} {p : Point} {a area r : Area} {s : σ}
    (h : Admits P w p a area s) (hr : w.areas.get? p = some r) : r ≤ area := by
  cases h with
  | absent hn => rw [hn] at hr; cases hr
  | enlarged hr' =>
    rw [hr'] at hr; cases hr
    exact Area.le_join_left r a
  | fresh hr' =>
    rw [hr'] at hr; cases hr
    exact Area.le_refl _

theorem Admits.respects (hR : P.Respects R) {w : Walk σ} {p : Point} {a area : Area} {s : σ}
    (h : Admits P w p a area s) : R w.state s := by
  cases h with
  | absent => exact hR.refl _
  | enlarged _ _ hs => exact hR.revisit hs
  | fresh => exact hR.refl _

structure Extends (w w' : Walk σ) : Prop where
  visited : ∀ p ∈ w.visited, p ∈ w'.visited
  areas : ∀ p a, w.areas.get? p = some a → ∃ b, w'.areas.get? p = some b ∧ a ≤ b

theorem Extends.refl (w : Walk σ) : w.Extends w :=
  ⟨fun _ h => h, fun _ a h => ⟨a, h, Area.le_refl a⟩⟩

theorem Extends.trans {w v u : Walk σ} (h : w.Extends v) (k : v.Extends u) : w.Extends u where
  visited p hp := k.visited p (h.visited p hp)
  areas p a ha := by
    obtain ⟨b, hb, hab⟩ := h.areas p a ha
    obtain ⟨c, hc, hbc⟩ := k.areas p b hb
    exact ⟨c, hc, Area.le_trans hab hbc⟩

theorem explored_extends {w : Walk σ} {p : Point} {a area : Area} {s s' : σ} {out : Area}
    {pending : List Point} (h : Admits P w p a area s) :
    w.Extends (w.explored p area s' out pending) where
  visited _ hq := List.mem_cons_of_mem _ hq
  areas q b hb := by
    by_cases hq : q = p
    · subst hq
      exact ⟨area, by simp [explored, Table.get?_put], h.recorded_le hb⟩
    · exact ⟨b, by simpa [explored, Table.get?_put, hq] using hb, Area.le_refl b⟩

theorem reach_extends {w w' : Walk σ} {p : Point} {a : Area} {b : Bool}
    (h : reach prog P p a w = .ok b w') : w.Extends w' := by
  rcases reach_cases h with ⟨-, rfl, -⟩ | ⟨-, area, s, ops, out, pending, s', ha, -, -, rfl⟩
  · exact .refl _
  · exact explored_extends ha

theorem Moves.extends {w w' : Walk σ} (h : Moves prog P w w') : w.Extends w' := by
  obtain ⟨pr, h⟩ := h
  rcases step_cases h with ⟨-, -, rfl⟩ | ⟨f, rest, -, -, -, rfl⟩ | ⟨f, rest, p, _, b, -, -, hr, -⟩
  · exact .refl _
  · exact ⟨fun _ h => h, fun _ a h => ⟨a, h, Area.le_refl a⟩⟩
  · exact ⟨(reach_extends hr).visited, (reach_extends hr).areas⟩

theorem moves_extends {w w' : Walk σ} (h : Relation.ReflTransGen (Moves prog P) w w') :
    w.Extends w' := by
  induction h with
  | refl => exact .refl w
  | tail _ hm ih => exact ih.trans hm.extends

theorem reach_arrives {w w' : Walk σ} {p : Point} {a : Area} {b : Bool}
    (h : reach prog P p a w = .ok b w') :
    p ∈ w'.visited ∧ ∃ r, w'.areas.get? p = some r ∧ a ≤ r := by
  rcases reach_cases h with ⟨-, rfl, hv, r, hr, hj⟩ |
    ⟨-, area, s, ops, out, pending, s', ha, -, -, rfl⟩
  · exact ⟨hv, r, hr, (Area.join_comm _ _).trans hj⟩
  · exact ⟨List.mem_cons_self, area, by simp [explored, Table.get?_put], ha.incoming_le⟩

def Settled (w : Walk σ) (out : Area) (q : Point) : Prop :=
  q ∈ w.visited ∧ ∃ b, w.areas.get? q = some b ∧ out ≤ b

/-- Some point under exploration still has to enter `q` in the area `out`. -/
def Awaits (w : Walk σ) (out : Area) (q : Point) : Prop :=
  ∃ f ∈ w.stack, f.out = out ∧ q ∈ f.pending

theorem Settled.extends {w w' : Walk σ} {out : Area} {q : Point} (h : w.Settled out q)
    (he : w.Extends w') : w'.Settled out q := by
  obtain ⟨hv, b, hb, ho⟩ := h
  obtain ⟨c, hc, hbc⟩ := he.areas q b hb
  exact ⟨he.visited q hv, c, hc, Area.le_trans ho hbc⟩

/-- A point was last run in the area recorded for it, what the run did to the state is still there,
and its successors are settled or awaited. -/
def Ran (prog : Program) (P : Processor σ) (R : σ → σ → Prop) (w : Walk σ) (p : Point) : Prop :=
  ∃ a ops out next s s', w.areas.get? p = some a ∧ p.ops? prog = some ops ∧
    runBlock prog P (prog.block p.block) a [] ops s = .ok (out, next) s' ∧ R s' w.state ∧
    ∀ q ∈ next, w.Settled out q ∨ w.Awaits out q

def Covers (prog : Program) (P : Processor σ) (R : σ → σ → Prop) (w : Walk σ) : Prop :=
  ∀ p ∈ w.visited, Ran prog P R w p

theorem Ran.mono (hR : P.Respects R) {w w' : Walk σ} {p : Point} (h : Ran prog P R w p)
    (hp : w'.areas.get? p = w.areas.get? p) (he : w.Extends w') (hs : R w.state w'.state)
    (hq : ∀ out q, w.Awaits out q → w'.Settled out q ∨ w'.Awaits out q) :
    Ran prog P R w' p := by
  obtain ⟨a, ops, out, next, s, s', ha, ho, hr, hg, hn⟩ := h
  refine ⟨a, ops, out, next, s, s', hp.trans ha, ho, hr, hR.trans hg hs, ?_⟩
  intro q hmem
  rcases hn q hmem with h | h
  · exact .inl (h.extends he)
  · exact hq out q h

theorem explored_ran (hR : P.Respects R) {w : Walk σ} {p : Point} {area : Area} {s s' : σ}
    {ops : List OpId} {out : Area} {pending : List Point} (ho : p.ops? prog = some ops)
    (hr : runBlock prog P (prog.block p.block) area [] ops s = .ok (out, pending) s') :
    Ran prog P R (w.explored p area s' out pending) p := by
  refine ⟨area, ops, out, pending, s, s', by simp [explored, Table.get?_put], ho, hr,
    hR.refl s', ?_⟩
  intro q hq
  exact .inr ⟨⟨p, pending, out⟩, List.mem_cons_self, rfl, hq⟩

theorem Covers.move (hR : P.Respects R) {w w' : Walk σ} (h : Covers prog P R w)
    (hm : Moves prog P w w') : Covers prog P R w' := by
  have hext := hm.extends
  obtain ⟨pr, hm⟩ := hm
  rcases step_cases hm with ⟨-, -, rfl⟩ | ⟨f, rest, hs, hp, -, rfl⟩ |
    ⟨f, rest, p, pending, b, hs, hp, hr, -⟩
  · exact h
  · intro x hx
    refine (h x hx).mono hR rfl hext (hR.refl _) ?_
    rintro out q ⟨g, hg, ho, hq⟩
    rw [hs] at hg
    rcases List.mem_cons.mp hg with rfl | hg
    · rw [hp] at hq; cases hq
    · exact .inr ⟨g, hg, ho, hq⟩
  · obtain ⟨hv, r, hrec, hle⟩ := reach_arrives hr
    have hwait : ∀ out q, w.Awaits out q → w'.stack = { f with pending } :: rest ∨
        (∃ g, w'.stack = g :: { f with pending } :: rest) →
        w'.Settled out q ∨ w'.Awaits out q := by
      rintro out q ⟨g, hg, ho, hq⟩ hstack
      rw [hs] at hg
      rcases List.mem_cons.mp hg with rfl | hg
      · rw [hp] at hq
        rcases List.mem_cons.mp hq with rfl | hq
        · exact .inl ⟨hv, r, hrec, ho ▸ hle⟩
        · refine .inr ⟨{ g with pending }, ?_, ho, hq⟩
          rcases hstack with h | ⟨_, h⟩ <;> simp [h]
      · refine .inr ⟨g, ?_, ho, hq⟩
        rcases hstack with h | ⟨_, h⟩ <;> simp [h, hg]
    rcases reach_cases hr with ⟨-, rfl, -⟩ | ⟨-, area, s, ops, out, next, s', ha, ho, hrun, rfl⟩
    · intro x hx
      exact (h x hx).mono hR rfl hext (hR.refl _) fun out q hw => hwait out q hw (.inl rfl)
    · intro x hx
      by_cases hxp : x = p
      · subst hxp
        exact explored_ran hR ho hrun
      · have hx : x ∈ w.visited := (List.mem_cons.mp hx).resolve_left hxp
        refine (h x hx).mono hR ?_ hext ?_ fun out q hw => hwait out q hw (.inr ⟨_, rfl⟩)
        · simp [explored, Table.get?_put, hxp]
        · exact hR.trans (ha.respects hR) (runBlock_respects hR hrun)

theorem moves_covers (hR : P.Respects R) {w w' : Walk σ}
    (hm : Relation.ReflTransGen (Moves prog P) w w') (h : Covers prog P R w) :
    Covers prog P R w' := by
  induction hm with
  | refl => exact h
  | tail _ hm ih => exact ih.move hR hm

theorem reach_respects (hR : P.Respects R) {w w' : Walk σ} {p : Point} {a : Area} {b : Bool}
    (h : reach prog P p a w = .ok b w') : R w.state w'.state := by
  rcases reach_cases h with ⟨-, rfl, -⟩ | ⟨-, area, s, ops, out, pending, s', ha, -, hrun, rfl⟩
  · exact hR.refl _
  · exact hR.trans (ha.respects hR) (runBlock_respects hR hrun)

theorem Moves.respects (hR : P.Respects R) {w w' : Walk σ} (h : Moves prog P w w') :
    R w.state w'.state := by
  obtain ⟨pr, h⟩ := h
  rcases step_cases h with ⟨-, -, rfl⟩ | ⟨f, rest, -, -, -, rfl⟩ |
    ⟨f, rest, p, pending, b, -, -, hr, -⟩
  · exact hR.refl _
  · exact hR.refl _
  · exact reach_respects (w := { w with stack := { f with pending } :: rest }) hR hr

theorem moves_respects (hR : P.Respects R) {w w' : Walk σ}
    (hm : Relation.ReflTransGen (Moves prog P) w w') : R w.state w'.state := by
  induction hm with
  | refl => exact hR.refl _
  | tail _ hm ih => exact hR.trans ih (hm.respects hR)

theorem walk_respects (hR : P.Respects R) {first : Point} {initial : Area} {w w' : Walk σ}
    (h : prog.walk P first initial w = .ok () w') : R w.state w'.state := by
  obtain ⟨b, v, hr, hm, -⟩ := walk_ok h
  exact hR.trans (reach_respects hR hr) (moves_respects hR hm)

/-- What is true at the end of a walk: the first point was explored, and every explored point was
run in its recorded area, with its effects kept and its successors settled. -/
theorem walk_covers (hR : P.Respects R) {first : Point} {initial : Area} {w w' : Walk σ}
    (hv : w.visited = []) (h : prog.walk P first initial w = .ok () w') :
    w.Extends w' ∧ R w.state w'.state ∧ w'.Settled initial first ∧
    ∀ p ∈ w'.visited, ∃ a ops out next s s', w'.areas.get? p = some a ∧ p.ops? prog = some ops ∧
      runBlock prog P (prog.block p.block) a [] ops s = .ok (out, next) s' ∧ R s' w'.state ∧
      ∀ q ∈ next, w'.Settled out q := by
  obtain ⟨b, v, hr, hm, hs⟩ := walk_ok h
  have hext := moves_extends hm
  have hcov : Covers prog P R v := by
    rcases reach_cases hr with ⟨-, -, hmem, -⟩ |
      ⟨-, area, s, ops, out, pending, s', -, ho, hrun, rfl⟩
    · rw [hv] at hmem; cases hmem
    · intro x hx
      simp only [explored, hv, List.mem_singleton] at hx
      subst hx
      exact explored_ran hR ho hrun
  refine ⟨(reach_extends hr).trans hext, walk_respects hR h,
    Settled.extends (reach_arrives hr) hext, ?_⟩
  intro p hp
  obtain ⟨a, ops, out, next, s, s', ha, ho, hrun, hg, hn⟩ := moves_covers hR hm hcov p hp
  refine ⟨a, ops, out, next, s, s', ha, ho, hrun, hg, ?_⟩
  intro q hq
  rcases hn q hq with h | ⟨f, hf, -⟩
  · exact h
  · rw [hs] at hf; cases hf

end Walk
end YieldPlan
