import YieldPlan.Proofs.ThreadRuns
import YieldPlan.Proofs.WalkOutcome

/-! A point is live if an operation of the program runs first there. Procedures, blocks and what
follows a call or an end marker start at live points. A walk over live points that its processor
does not leave fails only where the processor itself does. -/

namespace YieldPlan

def Point.Valid (prog : Program) (p : Point) : Prop := ∃ ops, p.ops? prog = some ops

/-- An operation of the program runs first at the point. -/
def Point.Live (prog : Program) (p : Point) : Prop := ∃ o, p.op? prog = some o

namespace Program

variable {prog : Program}

theorem live_ops {p : Point} (h : p.Live prog) :
    p.block < prog.blocks.size ∧ ∃ o rest, p.ops? prog = some (o :: rest) := by
  obtain ⟨o, ho⟩ := h
  obtain ⟨rest, hrest⟩ := ops?_of_opAt? ho
  exact ⟨(ops?_eq hrest).2, o, rest, hrest⟩

theorem valid_of_live {p : Point} (h : p.Live prog) : p.Valid prog := by
  obtain ⟨-, o, rest, hops⟩ := live_ops h
  exact ⟨o :: rest, hops⟩

namespace Shaped

variable (h : prog.Shaped)

include h

theorem live_entry {b : BlockId} (hb : b < prog.blocks.size) : (Point.entry b).Live prog :=
  h.exists_first hb

theorem live_after {o : OpId} (ho : o < prog.ops.size) (hk : ¬ (prog.kind o).isTerminator) :
    (prog.pointAfter o).Live prog := by
  have hlt := h.position_lt ho
  by_cases hnext : (prog.op o).position + 1 < (prog.block (prog.blockOf o)).ops.length
  · exact ⟨_, List.getElem?_eq_getElem hnext⟩
  · obtain ⟨last, hlast, hkind⟩ := h.last _ (h.blockOf_lt ho)
    have hself := h.opAt?_self ho
    rw [List.getLast?_eq_getElem?] at hlast
    have hpos : (prog.block (prog.blockOf o)).ops.length - 1 = (prog.op o).position := by omega
    rw [hpos] at hlast
    obtain rfl : last = o := Option.some.inj (hlast.symm.trans hself)
    rcases hkind with ⟨hkind, -⟩ | ⟨hkind, -⟩ <;> simp [hkind, OpKind.isTerminator] at hk

theorem hops_ok {b c : BlockId} (hb : b < prog.blocks.size)
    (hr : Relation.ReflTransGen prog.Hop b c) :
    c < prog.blocks.size ∧ (prog.block c).proc = (prog.block b).proc := by
  induction hr with
  | refl => exact ⟨hb, rfl⟩
  | @tail c d _ hd ih =>
    obtain ⟨-, -, -, hsuccs⟩ := hop_ok hd
    obtain ⟨hlt, hproc⟩ := h.succ c ih.1 d (by rw [hsuccs]; exact List.mem_singleton.mpr rfl)
    exact ⟨hlt, hproc.trans ih.2⟩

theorem firstPoint_ok {p : ProcId} (hp : p < prog.procs.size) :
    (prog.firstPoint p).Live prog ∧ (prog.block (prog.firstPoint p).block).proc = p := by
  obtain ⟨-, -, -, hlt, hproc, -⟩ := h.entry_ok hp
  obtain ⟨hlt', hproc'⟩ := h.hops_ok hlt (skipHops_hops _ _ _)
  exact ⟨h.live_entry hlt', hproc'.trans hproc⟩

end Shaped

end Program

def Step.Within (V : Point → Prop) (st : Step) : Prop :=
  ∀ points, st.points? = some points → ∀ q ∈ points, V q

theorem Step.within_continue (V : Point → Prop) (a : Area) : (Step.continue a).Within V := by
  simp [Step.Within, Step.points?]

theorem Step.within_jump {V : Point → Prop} (a : Area) {points : List Point}
    (h : ∀ q ∈ points, V q) : (Step.jump a points).Within V := by
  rintro _ ⟨⟩
  exact h

/-- Walks stay among the points of `V`: branches do, and so does the processor. Where `S` holds it keeps
it, or it fails as `E` allows. -/
structure Processor.Closed {σ : Type} (prog : Program) (P : Processor σ) (V : Point → Prop)
    (S : σ → Prop) (E : Failure → Prop) : Prop where
  valid : ∀ {p}, V p → p.Valid prog
  branch : ∀ {p b}, V p → b ∈ (prog.block p.block).succs → V (Point.entry b)
  visit : ∀ {p o a s}, V p → o ∈ (prog.block p.block).ops → S s →
    (P.visit o a).Ends s (fun st s' => S s' ∧ st.Within V) E
  afterCall : ∀ {p o f s}, V p → o ∈ (prog.block p.block).ops → prog.kind o = .call f → S s →
    (P.afterCall o f (prog.pointAfter o)).Ends s (fun l s' => S s' ∧ ∀ q ∈ l, V q) E
  afterReturn : ∀ {f s}, S s → (P.afterReturn f).Ends s (fun l s' => S s' ∧ ∀ q ∈ l, V q) E
  revisit : ∀ {p r a edge s}, V p → S s → (P.revisit p r a edge).Ends s (fun _ s' => S s') E

namespace Walk

open YieldPlan.Action Program

variable {σ : Type} {prog : Program} {P : Processor σ} {V : Point → Prop} {S : σ → Prop}
  {E : Failure → Prop}

theorem follow_ends (h : P.Closed prog V S E) {p : Point} (hp : V p) {succs : List Point}
    (hsuccs : ∀ q ∈ succs, V q) (k : OpKind) {s : σ} (hS : S s) :
    (follow P (prog.block p.block) succs k).Ends s (fun l s' => S s' ∧ ∀ q ∈ l, V q) E := by
  cases k with
  | terminator t =>
    cases t with
    | branch =>
      refine ends_pure ⟨hS, fun q hq => ?_⟩
      obtain ⟨c, hc, rfl⟩ := List.mem_map.mp hq
      exact h.branch hp hc
    | ret => exact h.afterReturn hS
  | _ => exact ends_pure ⟨hS, hsuccs⟩

theorem runBlock_ends (h : P.Closed prog V S E) {p : Point} (hp : V p) {ops : List OpId}
    (hops : ∀ o ∈ ops, o ∈ (prog.block p.block).ops) (a : Area) {succs : List Point}
    (hsuccs : ∀ q ∈ succs, V q) {s : σ} (hS : S s) :
    (runBlock prog P (prog.block p.block) a succs ops).Ends s
      (fun x s' => S s' ∧ ∀ q ∈ x.2, V q) E := by
  induction ops generalizing a succs s with
  | nil => exact ends_pure ⟨hS, hsuccs⟩
  | cons o rest ih =>
    obtain ⟨ho, hrest⟩ := List.forall_mem_cons.mp hops
    rw [runBlock]
    refine .bind (h.visit hp ho hS) ?_
    rintro st s' ⟨hS', hjump⟩
    cases st with
    | jump a points => exact ends_pure ⟨hS', hjump points rfl⟩
    | «continue» a =>
      cases hk : prog.kind o with
      | call f => exact .bind (h.afterCall hp ho hk hS') fun l s'' hl => ends_pure hl
      | _ =>
        exact .bind (follow_ends h hp hsuccs _ hS') fun l s'' hl => ih hrest a hl.2 hl.1

theorem explore_ends (h : P.Closed prog V S E) {w : Walk σ} {p : Point} {a area : Area} {s : σ}
    (hS : S w.state) (hp : V p) (hadmits : Admits P w p a area s) : ∃ ops, p.ops? prog = some ops ∧
      (runBlock prog P (prog.block p.block) area [] ops).Ends s
        (fun x s' => S s' ∧ ∀ q ∈ x.2, V q) E := by
  have hS' : S s := by
    cases hadmits with
    | absent => exact hS
    | enlarged _ _ hrevisit => exact (h.revisit hp hS).of_eq hrevisit
    | fresh => exact hS
  obtain ⟨ops, hops⟩ := h.valid hp
  refine ⟨ops, hops, runBlock_ends h hp ?_ area (by simp) hS'⟩
  intro x hx
  rw [(ops?_eq hops).1] at hx
  exact List.mem_of_mem_drop hx

/-- The walk of a closed processor stays among the points of `V`. -/
theorem Closed.safe (h : P.Closed prog V S E) :
    Safe prog P (fun s areas => S s ∧ ∀ p a, areas.get? p = some a → V p) (fun p _ => V p) E where
  revisit _ hkept hp _ _ := (h.revisit hp hkept.1).mono fun _ _ _ _ => trivial
  explore := by
    rintro w p a area s ⟨hS, hareas⟩ hp hadmits
    obtain ⟨ops, hops, hends⟩ := explore_ends h hS hp hadmits
    refine ⟨ops, hops, hends.mono ?_⟩
    rintro x s' - ⟨hS'', hnext⟩
    refine ⟨⟨hS'', fun q b hq => ?_⟩, hnext⟩
    rw [Table.get?_put] at hq
    split at hq
    · next heq => exact heq ▸ hp
    · exact hareas q b hq

theorem Closed.safe_recorded (h : P.Closed prog V S E) :
    Safe prog P (fun s _ => S s) (fun p _ => V p) E where
  revisit _ hS hp _ _ := (h.revisit hp hS).mono fun _ _ _ _ => trivial
  explore hS hp hadmits := explore_ends h hS hp hadmits

end Walk

end YieldPlan
