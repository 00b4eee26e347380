import YieldPlan.Walk
import Mathlib.Algebra.Order.Group.Nat
import Mathlib.Data.List.Basic
import Mathlib.Logic.Relation

/-! One inversion lemma for each step of a walk, a potential that every exploration lowers, and from
these: a walk that does not fail ends with an empty stack. Nothing is assumed of the processor, so
the same facts serve ownership and phase tracking. -/

namespace YieldPlan

namespace Action

variable {σ α β : Type}

theorem bind_ok {x : Action σ α} {f : α → Action σ β} {s s' : σ} {b : β} :
    (x >>= f) s = .ok b s' ↔ ∃ a t, x s = .ok a t ∧ f a t = .ok b s' := by
  show EStateM.bind x f s = _ ↔ _
  unfold EStateM.bind
  cases x s with
  | ok a t => simp
  | error e t => simp

theorem pure_ok {s s' : σ} {a b : α} : (pure a : Action σ α) s = .ok b s' ↔ a = b ∧ s = s' := by
  show EStateM.Result.ok a s = _ ↔ _
  simp

theorem modify_ok {f : σ → σ} {s s' : σ} {u : Unit} :
    (modify f : Action σ Unit) s = .ok u s' ↔ f s = s' := by
  show EStateM.Result.ok () (f s) = _ ↔ _
  simp

theorem get_ok {s s' t : σ} : (get : Action σ σ) s = .ok t s' ↔ s = t ∧ s = s' := by
  show EStateM.Result.ok s s = _ ↔ _
  simp

theorem check_ok {x : Checked α} {s s' : σ} {a : α} :
    (check x : Action σ α) s = .ok a s' ↔ x = .ok a ∧ s = s' := by
  cases x with
  | ok b => simp [check, pure_ok]
  | error e =>
    show EStateM.Result.error e s = _ ↔ _
    simp

end Action

namespace Walk

variable {σ : Type} {prog : Program} {P : Processor σ}

theorem lift_ok {α : Type} {x : Action σ α} {w w' : Walk σ} {a : α} :
    lift x w = .ok a w' ↔ ∃ s, x w.state = .ok a s ∧ w' = { w with state := s } := by
  unfold lift
  cases x w.state with
  | ok b s => simp [eq_comm]
  | error e s => simp

def runBlock (prog : Program) (P : Processor σ) (b : Block) (area : Area) (succs : List Point) :
    List OpId → Action σ (Area × List Point)
  | [] => return (area, succs)
  | o :: rest => do
    match ← P.visit o area with
    | .jump area points => return (area, points)
    | .continue area =>
      match prog.kind o with
      | .call callee => return (area, ← P.afterCall o callee (prog.pointAfter o))
      | kind => runBlock prog P b area (← follow P b succs kind) rest

theorem lift_pure {α : Type} (a : α) : lift (pure a : Action σ α) = pure a := rfl

theorem lift_bind {α β : Type} (x : Action σ α) (f : α → Action σ β) :
    lift (x >>= f) = lift x >>= fun a => lift (f a) := by
  funext w
  show lift (EStateM.bind x f) w = EStateM.bind (lift x) (fun a => lift (f a)) w
  simp only [lift, EStateM.bind]
  cases x w.state <;> rfl

theorem runOps_eq_lift (b : Block) (area : Area) (succs : List Point) (ops : List OpId) :
    runOps prog P b area succs ops = lift (runBlock prog P b area succs ops) := by
  induction ops generalizing area succs with
  | nil => rfl
  | cons o rest ih =>
    rw [runOps, runBlock, lift_bind]
    congr 1
    funext st
    cases st with
    | jump area points => rfl
    | «continue» area =>
      cases hk : prog.kind o with
      | call callee => simp only [lift_bind, lift_pure]
      | _ => simp only [lift_bind, ih]

/-- The area in which a reached point is explored, and the state of the processor by then. -/
inductive Admits (P : Processor σ) (w : Walk σ) (p : Point) (incoming : Area) :
    Area → σ → Prop where
  | absent : w.areas.get? p = none → Admits P w p incoming incoming w.state
  | enlarged {r s} : w.areas.get? p = some r → r.join incoming ≠ r →
      P.revisit p r incoming (if 0 < (w.active.get? p).getD 0 then .back else .cross) w.state =
        .ok () s →
      Admits P w p incoming (r.join incoming) s
  | fresh {r} : w.areas.get? p = some r → r.join incoming = r → p ∉ w.visited →
      Admits P w p incoming r w.state

def explored (w : Walk σ) (p : Point) (area : Area) (s : σ) (out : Area) (pending : List Point) :
    Walk σ where
  state := s
  areas := w.areas.put p area
  stack := ⟨p, pending, out⟩ :: w.stack
  active := w.active.put p ((w.active.get? p).getD 0 + 1)
  visited := p :: w.visited

theorem enter_cases {w w' : Walk σ} {p : Point} {a : Area} {x : Option Area}
    (h : enter P p a w = .ok x w') :
    (x = none ∧ w' = w ∧ p ∈ w.visited ∧ ∃ r, w.areas.get? p = some r ∧ r.join a = r) ∨
    ∃ area s, x = some area ∧ Admits P w p a area s ∧
      w' = { w with state := s, areas := w.areas.put p area, visited := p :: w.visited } := by
  unfold enter at h
  obtain ⟨v, u, hg, h⟩ := Action.bind_ok.mp h
  obtain ⟨rfl, rfl⟩ := Action.get_ok.mp hg
  cases hr : w.areas.get? p with
  | none =>
    simp only [hr] at h
    obtain ⟨_, u, hm, h⟩ := Action.bind_ok.mp h
    obtain ⟨rfl, rfl⟩ := Action.pure_ok.mp h
    exact .inr ⟨a, w.state, rfl, .absent hr, (Action.modify_ok.mp hm).symm⟩
  | some r =>
    simp only [hr] at h
    split at h
    · next hne =>
      obtain ⟨_, u, hl, h⟩ := Action.bind_ok.mp h
      obtain ⟨s, hs, rfl⟩ := lift_ok.mp hl
      obtain ⟨_, u, hm, h⟩ := Action.bind_ok.mp h
      obtain ⟨rfl, rfl⟩ := Action.pure_ok.mp h
      exact .inr ⟨_, s, rfl, .enlarged hr hne hs, (Action.modify_ok.mp hm).symm⟩
    · next heq =>
      have heq : r.join a = r := by simpa using heq
      split at h
      · next hv =>
        obtain ⟨rfl, rfl⟩ := Action.pure_ok.mp h
        exact .inl ⟨rfl, rfl, hv, r, rfl, heq⟩
      · next hv =>
        obtain ⟨_, u, hm, h⟩ := Action.bind_ok.mp h
        obtain ⟨rfl, rfl⟩ := Action.pure_ok.mp h
        exact .inr ⟨r, w.state, rfl, .fresh hr heq hv, (Action.modify_ok.mp hm).symm⟩

theorem explore_cases {w w' : Walk σ} {p : Point} {area : Area} {u : Unit}
    (h : explore prog P p area w = .ok u w') :
    ∃ ops out pending s, p.ops? prog = some ops ∧
      runBlock prog P (prog.block p.block) area [] ops w.state = .ok (out, pending) s ∧
      w' = { w with
        state := s
        stack := ⟨p, pending, out⟩ :: w.stack
        active := w.active.put p ((w.active.get? p).getD 0 + 1) } := by
  unfold explore at h
  obtain ⟨ops, v, hc, h₁⟩ := Action.bind_ok.mp h
  obtain ⟨ho, rfl⟩ := Action.check_ok.mp hc
  obtain ⟨⟨out, pending⟩, v, hb, h₂⟩ := Action.bind_ok.mp h₁
  rw [runOps_eq_lift] at hb
  obtain ⟨s, hs, rfl⟩ := lift_ok.mp hb
  exact ⟨ops, out, pending, s, Checked.index_ok.mp ho, hs, (Action.modify_ok.mp h₂).symm⟩

theorem reach_cases {w w' : Walk σ} {p : Point} {a : Area} {b : Bool}
    (h : reach prog P p a w = .ok b w') :
    (b = false ∧ w' = w ∧ p ∈ w.visited ∧ ∃ r, w.areas.get? p = some r ∧ r.join a = r) ∨
    b = true ∧ ∃ area s ops out pending s', Admits P w p a area s ∧ p.ops? prog = some ops ∧
      runBlock prog P (prog.block p.block) area [] ops s = .ok (out, pending) s' ∧
      w' = w.explored p area s' out pending := by
  unfold reach at h
  obtain ⟨x, v, he, hx⟩ := Action.bind_ok.mp h
  rcases enter_cases he with ⟨rfl, rfl, hv, r, hr, hj⟩ | ⟨area, s, rfl, ha, rfl⟩
  · obtain ⟨rfl, rfl⟩ := Action.pure_ok.mp hx
    exact .inl ⟨rfl, rfl, hv, r, hr, hj⟩
  · obtain ⟨_, u, hp, hb⟩ := Action.bind_ok.mp hx
    obtain ⟨rfl, rfl⟩ := Action.pure_ok.mp hb
    obtain ⟨ops, out, pending, s', ho, hs, rfl⟩ := explore_cases hp
    exact .inr ⟨rfl, area, s, ops, out, pending, s', ha, ho, hs, rfl⟩

def left (w : Walk σ) (p : Point) (rest : List Frame) : Walk σ :=
  { w with stack := rest, active := w.active.put p ((w.active.get? p).getD 0 - 1) }

theorem step_cases {w w' : Walk σ} {pr : Progress} (h : step prog P w = .ok pr w') :
    (w.stack = [] ∧ pr = .done ∧ w' = w) ∨
    (∃ f rest, w.stack = f :: rest ∧ f.pending = [] ∧ pr = .moved ∧ w' = w.left f.point rest) ∨
    ∃ f rest p pending b, w.stack = f :: rest ∧ f.pending = p :: pending ∧
      reach prog P p f.out { w with stack := { f with pending } :: rest } = .ok b w' ∧
      pr = if b then .explored else .moved := by
  unfold step at h
  obtain ⟨v, u, hg, h⟩ := Action.bind_ok.mp h
  obtain ⟨rfl, rfl⟩ := Action.get_ok.mp hg
  cases hs : w.stack with
  | nil =>
    simp only [hs] at h
    obtain ⟨rfl, rfl⟩ := Action.pure_ok.mp h
    exact .inl ⟨rfl, rfl, rfl⟩
  | cons f rest =>
    simp only [hs] at h
    cases hp : f.pending with
    | nil =>
      simp only [hp] at h
      obtain ⟨_, u, hm, h⟩ := Action.bind_ok.mp h
      obtain ⟨rfl, rfl⟩ := Action.pure_ok.mp h
      exact .inr (.inl ⟨f, rest, rfl, hp, rfl, (Action.modify_ok.mp hm).symm⟩)
    | cons p pending =>
      simp only [hp] at h
      obtain ⟨_, u, hm, h⟩ := Action.bind_ok.mp h
      obtain rfl := Action.modify_ok.mp hm
      obtain ⟨b, u, hr, h⟩ := Action.bind_ok.mp h
      obtain ⟨rfl, rfl⟩ := Action.pure_ok.mp h
      exact .inr (.inr ⟨f, rest, p, pending, b, rfl, hp, hr, rfl⟩)

/-- How often this walk may still explore a point. -/
def slack (w : Walk σ) (p : Point) : Nat :=
  match w.areas.get? p with
  | none => 2
  | some a => if p ∈ w.visited then if a = .top then 0 else 1 else 2

theorem slack_le_two (w : Walk σ) (p : Point) : w.slack p ≤ 2 := by
  unfold slack
  split
  · exact le_rfl
  · split
    · split <;> omega
    · exact le_rfl

/-- An exploration uses up some of the slack of its point. An area that is enlarged becomes `top`, so
the second exploration is the last. -/
theorem slack_explored_self {w : Walk σ} {p : Point} {a area : Area} {s s' : σ} {out : Area}
    {pending : List Point} (h : Admits P w p a area s) :
    (w.explored p area s' out pending).slack p < w.slack p := by
  have hle : (w.explored p area s' out pending).slack p ≤ if area = .top then 0 else 1 := by
    simp [slack, explored, Table.get?_put]
  cases h with
  | absent hr =>
    have : w.slack p = 2 := by simp [slack, hr]
    split at hle <;> omega
  | @enlarged r s hr hne _ =>
    rw [if_pos (Area.join_eq_top_of_ne hne)] at hle
    have ht : r ≠ .top := by
      rintro rfl
      exact hne (by cases a <;> rfl)
    have : 0 < w.slack p := by
      simp only [slack, hr, if_neg ht]
      split <;> omega
    omega
  | fresh hr _ hv =>
    have : w.slack p = 2 := by simp [slack, hr, hv]
    split at hle <;> omega

theorem slack_explored_of_ne {w : Walk σ} {p q : Point} {area : Area} {s : σ} {out : Area}
    {pending : List Point} (h : q ≠ p) :
    (w.explored p area s out pending).slack q = w.slack q := by
  simp [slack, explored, Table.get?_put, h]

def points (prog : Program) : List Point :=
  prog.blockIds.flatMap fun b => (List.range ((prog.block b).ops.length + 1)).map (Point.mk b)

private theorem total_le {α : Type} {f : α → Nat} {c : Nat} {l : List α} (h : ∀ a ∈ l, f a ≤ c) :
    l.foldr (fun a n => f a + n) 0 ≤ c * l.length := by
  induction l with
  | nil => simp
  | cons a l ih =>
    have ha := h a List.mem_cons_self
    have hl := ih fun x hx => h x (List.mem_cons_of_mem _ hx)
    rw [List.foldr_cons, List.length_cons, Nat.mul_succ]
    omega

private theorem total_mono {α : Type} {f g : α → Nat} {l : List α} (h : ∀ a ∈ l, f a ≤ g a) :
    l.foldr (fun a n => f a + n) 0 ≤ l.foldr (fun a n => g a + n) 0 := by
  induction l with
  | nil => simp
  | cons a l ih =>
    have ha := h a List.mem_cons_self
    have hl := ih fun x hx => h x (List.mem_cons_of_mem _ hx)
    simp only [List.foldr_cons]
    omega

private theorem total_lt {α : Type} {f g : α → Nat} {l : List α} (h : ∀ a ∈ l, f a ≤ g a)
    (hlt : ∃ a ∈ l, f a < g a) :
    l.foldr (fun a n => f a + n) 0 < l.foldr (fun a n => g a + n) 0 := by
  induction l with
  | nil => simp at hlt
  | cons a l ih =>
    have ha := h a List.mem_cons_self
    have hl : ∀ x ∈ l, f x ≤ g x := fun x hx => h x (List.mem_cons_of_mem _ hx)
    obtain ⟨x, hx, hlt⟩ := hlt
    simp only [List.foldr_cons]
    rcases List.mem_cons.mp hx with rfl | hx
    · have hrest := total_mono hl
      omega
    · have hrest := ih hl ⟨x, hx, hlt⟩
      omega

private theorem length_flatMap_eq {α β : Type} {f : α → List β} (l : List α) :
    (l.flatMap f).length = l.foldr (fun a n => (f a).length + n) 0 := by
  induction l with
  | nil => rfl
  | cons a l ih => simp [ih]

theorem length_points (prog : Program) : (points prog).length = prog.pointCount := by
  have hb : prog.blocks.toList = prog.blockIds.map prog.block := by
    apply List.ext_getElem
    · simp [Program.blockIds]
    · intro i h₁ h₂
      have hi : i < prog.blocks.size := by simpa using h₁
      simp [Program.blockIds, Program.block, Program.block?, hi]
  rw [points, length_flatMap_eq, Program.pointCount, hb, List.foldr_map]
  simp only [List.length_map, List.length_range]

theorem mem_points {p : Point} {ops : List OpId} (h : p.ops? prog = some ops) :
    p ∈ points prog := by
  obtain ⟨b, hb, h⟩ := Option.bind_eq_some_iff.mp h
  obtain ⟨hi, -⟩ := Array.getElem?_eq_some_iff.mp hb
  have hblock : prog.block p.block = b := by simp [Program.block, hb]
  have hs : p.start ≤ b.ops.length := by
    by_contra hn
    simp [hn] at h
  refine List.mem_flatMap.mpr ⟨p.block, List.mem_range.mpr hi, List.mem_map.mpr ⟨p.start, ?_, rfl⟩⟩
  rw [hblock]
  exact List.mem_range.mpr (by omega)

/-- How many explorations are left at most. -/
def potential (prog : Program) (w : Walk σ) : Nat :=
  (points prog).foldr (fun p n => w.slack p + n) 0

theorem potential_le (prog : Program) (w : Walk σ) : potential prog w ≤ 2 * prog.pointCount := by
  rw [← length_points]
  exact total_le fun p _ => slack_le_two w p

theorem potential_explored {w : Walk σ} {p : Point} {a area : Area} {s s' : σ} {out : Area}
    {pending : List Point} {ops : List OpId} (h : Admits P w p a area s)
    (hp : p.ops? prog = some ops) :
    potential prog (w.explored p area s' out pending) < potential prog w := by
  apply total_lt
  · intro q _
    by_cases hq : q = p
    · subst hq; exact (slack_explored_self h).le
    · exact (slack_explored_of_ne hq).le
  · exact ⟨p, mem_points hp, slack_explored_self h⟩

def Moves (prog : Program) (P : Processor σ) (w w' : Walk σ) : Prop :=
  ∃ pr, step prog P w = .ok pr w'

/-- A step either empties a bit of the stack or lowers the potential. -/
theorem step_progress {w w' : Walk σ} {pr : Progress} (h : step prog P w = .ok pr w') :
    match pr with
    | .done => w.stack = [] ∧ w' = w
    | .moved => weight w'.stack + 1 = weight w.stack ∧ potential prog w' = potential prog w
    | .explored => potential prog w' < potential prog w := by
  rcases step_cases h with ⟨hs, rfl, rfl⟩ | ⟨f, rest, hs, hp, rfl, rfl⟩ |
    ⟨f, rest, p, pending, b, hs, hp, hr, rfl⟩
  · exact ⟨hs, rfl⟩
  · refine ⟨?_, rfl⟩
    simp [left, weight, hs, hp, Nat.add_comm]
  · rcases reach_cases hr with ⟨rfl, rfl, -⟩ | ⟨rfl, area, s, ops, out, _, s', ha, ho, -, rfl⟩
    · refine ⟨?_, rfl⟩
      simp only [weight, hs, hp, List.foldr_cons, List.length_cons]
      omega
    · exact potential_explored (w := { w with stack := { f with pending } :: rest }) ha ho

theorem drain_ok {next : Action (Walk σ) Unit} {fuel : Nat} {w w' : Walk σ}
    (h : drain prog P next fuel w = .ok () w') (hf : weight w.stack < fuel) :
    (Relation.ReflTransGen (Moves prog P) w w' ∧ w'.stack = []) ∨
    ∃ v, Relation.ReflTransGen (Moves prog P) w v ∧ potential prog v < potential prog w ∧
      next v = .ok () w' := by
  induction fuel generalizing w with
  | zero => omega
  | succ fuel ih =>
    rw [drain] at h
    obtain ⟨pr, v, hs, hn⟩ := Action.bind_ok.mp h
    have hv := step_progress hs
    cases pr with
    | done =>
      obtain ⟨-, rfl⟩ := Action.pure_ok.mp hn
      exact .inl ⟨.single ⟨_, hs⟩, by rw [hv.2]; exact hv.1⟩
    | moved =>
      rcases ih hn (by omega) with ⟨hr, he⟩ | ⟨u, hr, hlt, hu⟩
      · exact .inl ⟨.head ⟨_, hs⟩ hr, he⟩
      · exact .inr ⟨u, .head ⟨_, hs⟩ hr, by omega, hu⟩
    | explored => exact .inr ⟨v, .single ⟨_, hs⟩, hv, hn⟩

theorem run_ok {budget : Nat} {w w' : Walk σ} (h : run prog P budget w = .ok () w')
    (hb : potential prog w < budget) :
    Relation.ReflTransGen (Moves prog P) w w' ∧ w'.stack = [] := by
  induction budget generalizing w with
  | zero => omega
  | succ budget ih =>
    rw [run] at h
    obtain ⟨v, u, hg, hd⟩ := Action.bind_ok.mp h
    obtain ⟨rfl, rfl⟩ := Action.get_ok.mp hg
    rcases drain_ok hd (by omega) with hr | ⟨v, hr, hlt, hv⟩
    · exact hr
    · obtain ⟨hr', he⟩ := ih hv (by omega)
      exact ⟨hr.trans hr', he⟩

theorem walk_ok {first : Point} {initial : Area} {w w' : Walk σ}
    (h : prog.walk P first initial w = .ok () w') :
    ∃ b v, reach prog P first initial w = .ok b v ∧
      Relation.ReflTransGen (Moves prog P) v w' ∧ w'.stack = [] := by
  obtain ⟨b, v, hr, hw⟩ := Action.bind_ok.mp h
  have hp := potential_le prog v
  obtain ⟨hm, he⟩ := run_ok hw (by omega)
  exact ⟨b, v, hr, hm, he⟩

/-- What holds once the first point was reached, and is kept by every step, holds at the end. -/
theorem walk_induction {I : Walk σ → Prop} {first : Point} {initial : Area} {w w' : Walk σ}
    (hwalk : prog.walk P first initial w = .ok () w')
    (hreach : ∀ b v, reach prog P first initial w = .ok b v → I v)
    (hmove : ∀ v u, I v → Moves prog P v u → I u) : I w' := by
  obtain ⟨b, v, hr, hmoves, -⟩ := walk_ok hwalk
  have hv : I v := hreach b v hr
  clear hwalk
  induction hmoves with
  | refl => exact hv
  | tail _ hlast ih => exact hmove _ _ ih hlast

end Walk
end YieldPlan
