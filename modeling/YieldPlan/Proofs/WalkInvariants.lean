import YieldPlan.Proofs.ClosedWalks

/-! What every exploration keeps of the state, the recorded areas and the explored points holds at
the end of a walk. A processor tracks a set of operations if control stays in it, as far as the
processor follows control; a walk that starts in the set then stays there. -/

namespace YieldPlan

namespace Walk

variable {σ : Type} {prog : Program} {P : Processor σ} {V : Point → Prop}
  {I : σ → Table Point Area → List Point → Prop}

/-- Each exploration of a point of `V` keeps `I` and goes on to points of `V`. -/
def Explores (prog : Program) (P : Processor σ) (I : σ → Table Point Area → List Point → Prop)
    (V : Point → Prop) : Prop :=
  ∀ {w : Walk σ} {p a area s ops x s'}, I w.state w.areas w.visited → V p →
    Admits P w p a area s → p.ops? prog = some ops →
    runBlock prog P (prog.block p.block) area [] ops s = .ok x s' →
    I s' (w.areas.put p area) (p :: w.visited) ∧ ∀ q ∈ x.2, V q

structure Keeps (I : σ → Table Point Area → List Point → Prop) (V : Point → Prop) (w : Walk σ) :
    Prop where
  kept : I w.state w.areas w.visited
  pending : ∀ f ∈ w.stack, ∀ q ∈ f.pending, V q

theorem reach_keeps (h : Explores prog P I V) {w w' : Walk σ} {p : Point} {a : Area} {b : Bool}
    (hw : Keeps I V w) (hp : V p) (hr : reach prog P p a w = .ok b w') : Keeps I V w' := by
  rcases reach_cases hr with ⟨-, rfl, -⟩ | ⟨-, area, s, ops, out, pending, s', ha, ho, hrun, rfl⟩
  · exact hw
  · obtain ⟨hkept, hnext⟩ := h hw.kept hp ha ho hrun
    constructor
    · exact hkept
    · intro f hf
      rcases List.mem_cons.mp hf with rfl | hf
      · exact hnext
      · exact hw.pending f hf

theorem Moves.keeps (h : Explores prog P I V) {w w' : Walk σ} (hw : Keeps I V w)
    (hm : Moves prog P w w') : Keeps I V w' := by
  obtain ⟨pr, hm⟩ := hm
  rcases step_cases hm with ⟨-, -, rfl⟩ | ⟨f, rest, hs, -, -, rfl⟩ |
    ⟨f, rest, p, pending, b, hs, hp, hr, -⟩
  · exact hw
  · constructor
    · exact hw.kept
    · intro g hg
      exact hw.pending g (hs ▸ List.mem_cons_of_mem _ hg)
  · have hf : ∀ q ∈ p :: pending, V q := by
      rw [← hp]
      exact hw.pending f (hs ▸ List.mem_cons_self)
    apply reach_keeps h _ (hf p List.mem_cons_self) hr
    constructor
    · exact hw.kept
    · intro g hg
      rcases List.mem_cons.mp hg with rfl | hg
      · exact fun q hq => hf q (List.mem_cons_of_mem _ hq)
      · exact hw.pending g (hs ▸ List.mem_cons_of_mem _ hg)

theorem walk_keeps (h : Explores prog P I V) {first : Point} {initial : Area} {w w' : Walk σ}
    (hstack : w.stack = []) (hI : I w.state w.areas w.visited) (hfirst : V first)
    (hwalk : prog.walk P first initial w = .ok () w') : I w'.state w'.areas w'.visited := by
  have hw : Keeps I V w' := by
    apply walk_induction hwalk
    · exact fun b v hr => reach_keeps h ⟨hI, by simp [hstack]⟩ hfirst hr
    · exact fun v u hv hmove => hmove.keeps h hv
  exact hw.kept

end Walk

def Point.At (prog : Program) (W : OpId → Prop) (p : Point) : Prop := ∃ o, p.op? prog = some o ∧ W o

/-- From operations of `W` the processor is led to operations of `W` only, and it keeps `S`. -/
structure Processor.Tracks {σ : Type} (prog : Program) (P : Processor σ) (W : OpId → Prop)
    (S : σ → Prop) : Prop where
  next : ∀ {o o'}, W o → ¬ (prog.kind o).isTerminator → (prog.kind o).callee? = none →
    prog.Follows o o' → W o'
  branch : ∀ {o b}, W o → prog.kind o = .terminator .branch → prog.Succ (prog.blockOf o) b →
    (Point.entry b).At prog W
  visit : ∀ {o a s st s'}, W o → S s → P.visit o a s = .ok st s' →
    S s' ∧ st.Within (Point.At prog W)
  afterCall : ∀ {o f s l s'}, W o → prog.kind o = .call f → S s →
    P.afterCall o f (prog.pointAfter o) s = .ok l s' → S s' ∧ ∀ q ∈ l, q.At prog W
  afterReturn : ∀ {o s l s'}, W o → prog.kind o = .terminator .ret → S s →
    P.afterReturn (prog.procOf o) s = .ok l s' → S s' ∧ ∀ q ∈ l, q.At prog W
  revisit : ∀ {p r a edge s u s'}, p.At prog W → S s → P.revisit p r a edge s = .ok u s' → S s'

namespace Walk

variable {σ : Type} {prog : Program} {P : Processor σ} {W : OpId → Prop} {S : σ → Prop}

theorem head_rest (h : P.Tracks prog W S) (hs : prog.Shaped) {b : BlockId} {o : OpId}
    {rest : List OpId} (ho : W o) (hk : (prog.kind o).callee? = none)
    (hsuffix : o :: rest <:+ (prog.block b).ops) : ∀ o', rest.head? = some o' → W o' := by
  intro o' ho'
  have ht : ¬ (prog.kind o).isTerminator := by
    intro ht
    rw [hs.terminator_last hsuffix ht] at ho'
    cases ho'
  obtain ⟨tail, rfl⟩ := List.head?_eq_some_iff.mp ho'
  exact h.next ho ht hk (hs.follows_of_suffix hsuffix).2

theorem follow_tracks (h : P.Tracks prog W S) {o : OpId} (ho : W o) {succs l : List Point}
    (hsuccs : ∀ q ∈ succs, q.At prog W) {s s' : σ} (hS : S s)
    (hl : follow P (prog.block (prog.blockOf o)) succs (prog.kind o) s = .ok l s') :
    S s' ∧ ∀ q ∈ l, q.At prog W := by
  rcases follow_cases hl with ⟨hk, rfl, rfl⟩ | ⟨hk, hret⟩ | ⟨-, rfl, rfl⟩
  · refine ⟨hS, fun q hq => ?_⟩
    obtain ⟨c, hmem, rfl⟩ := List.mem_map.mp hq
    exact h.branch ho hk hmem
  · exact h.afterReturn ho hk hS hret
  · exact ⟨hS, hsuccs⟩

theorem runBlock_tracks (h : P.Tracks prog W S) (hs : prog.Shaped) {b : BlockId} {a : Area}
    {ops : List OpId} {succs : List Point} {s s' : σ} {x : Area × List Point}
    (hsuffix : ops <:+ (prog.block b).ops) (hhead : ∀ o, ops.head? = some o → W o)
    (hsuccs : ∀ q ∈ succs, q.At prog W) (hS : S s)
    (hrun : runBlock prog P (prog.block b) a succs ops s = .ok x s') :
    S s' ∧ ∀ q ∈ x.2, q.At prog W := by
  induction ops generalizing a succs s with
  | nil =>
    obtain ⟨rfl, rfl⟩ := Action.pure_ok.mp hrun
    exact ⟨hS, hsuccs⟩
  | cons o rest ih =>
    have ho : W o := hhead o rfl
    obtain rfl : prog.blockOf o = b := (hs.mem_ops.mp (hsuffix.subset List.mem_cons_self)).2
    rcases runBlock_cons hrun with ⟨c, points, hv, rfl⟩ | ⟨c, u, f, l, hv, hk, hl, rfl⟩ |
      ⟨c, u, l, v, hv, hk, hl, hrest⟩
    · obtain ⟨hu, hwithin⟩ := h.visit ho hS hv
      exact ⟨hu, hwithin points rfl⟩
    · exact h.afterCall ho hk (h.visit ho hS hv).1 hl
    · obtain ⟨hv', hnext⟩ := follow_tracks h ho hsuccs (h.visit ho hS hv).1 hl
      exact ih ((List.suffix_cons o rest).trans hsuffix) (head_rest h hs ho hk hsuffix) hnext hv'
        hrest

theorem Admits.tracked (h : P.Tracks prog W S) {w : Walk σ} {p : Point} {a area : Area} {s : σ}
    (hadmits : Admits P w p a area s) (hp : p.At prog W) (hS : S w.state) : S s := by
  cases hadmits with
  | absent => exact hS
  | enlarged _ _ hrevisit => exact h.revisit hp hS hrevisit
  | fresh => exact hS

theorem explore_tracks (h : P.Tracks prog W S) (hs : prog.Shaped) {areas : Table Point Area}
    {p : Point} {area : Area} {ops : List OpId} {s s' : σ} {x : Area × List Point} (hS : S s)
    (hareas : ∀ q b, areas.get? q = some b → q.At prog W) (hp : p.At prog W)
    (hops : p.ops? prog = some ops)
    (hrun : runBlock prog P (prog.block p.block) area [] ops s = .ok x s') :
    (S s' ∧ ∀ q b, (areas.put p area).get? q = some b → q.At prog W) ∧
      ∀ q ∈ x.2, q.At prog W := by
  have hhead : ∀ o, ops.head? = some o → W o := by
    intro o ho
    obtain ⟨o', ho', hW⟩ := hp
    rw [Program.ops?_head? hops] at ho
    obtain rfl : o = o' := Option.some.inj (ho.symm.trans ho')
    exact hW
  obtain ⟨hs', hnext⟩ := runBlock_tracks h hs (Program.ops?_suffix hops) hhead (by simp) hS hrun
  refine ⟨⟨hs', fun q b hq => ?_⟩, hnext⟩
  rw [Table.get?_put] at hq
  split at hq
  · next heq => exact heq ▸ hp
  · exact hareas q b hq

theorem walk_tracks (h : P.Tracks prog W S) (hs : prog.Shaped) {first : Point} {initial : Area}
    {w w' : Walk σ} (hstack : w.stack = []) (hS : S w.state)
    (hareas : ∀ p a, w.areas.get? p = some a → p.At prog W) (hfirst : first.At prog W)
    (hwalk : prog.walk P first initial w = .ok () w') :
    S w'.state ∧ ∀ p a, w'.areas.get? p = some a → p.At prog W := by
  apply walk_keeps (I := fun s areas _ => S s ∧ ∀ p a, areas.get? p = some a → p.At prog W)
    (V := Point.At prog W) _ hstack ⟨hS, hareas⟩ hfirst hwalk
  rintro v p a area s ops x s' ⟨hS, hareas⟩ hp hadmits hops hrun
  exact explore_tracks h hs (hadmits.tracked h hp hS) hareas hp hops hrun

end Walk

structure Processor.Fails {σ : Type} (prog : Program) (P : Processor σ) (W : OpId → Prop)
    (S : σ → Prop) (E : Failure → Prop) : Prop where
  visit : ∀ {o a s}, W o → S s → (P.visit o a).Ends s (fun _ _ => True) E
  afterCall : ∀ {o f s}, W o → prog.kind o = .call f → S s →
    (P.afterCall o f (prog.pointAfter o)).Ends s (fun _ _ => True) E
  afterReturn : ∀ {o s}, W o → prog.kind o = .terminator .ret → S s →
    (P.afterReturn (prog.procOf o)).Ends s (fun _ _ => True) E
  revisit : ∀ {p r a edge s}, p.At prog W → S s →
    (P.revisit p r a edge).Ends s (fun _ _ => True) E

namespace Walk

open YieldPlan.Action

variable {σ : Type} {prog : Program} {P : Processor σ} {W : OpId → Prop} {S : σ → Prop}
  {E : Failure → Prop}

theorem follow_fails (hf : P.Fails prog W S E) {o : OpId} (ho : W o) (succs : List Point) {s : σ}
    (hS : S s) : (follow P (prog.block (prog.blockOf o)) succs (prog.kind o)).Ends s
      (fun _ _ => True) E := by
  cases hk : prog.kind o with
  | terminator t =>
    cases t with
    | branch => exact ends_pure trivial
    | ret => exact hf.afterReturn ho hk hS
  | _ => exact ends_pure trivial

theorem runBlock_fails (h : P.Tracks prog W S) (hf : P.Fails prog W S E) (hs : prog.Shaped)
    {b : BlockId} {a : Area} {ops : List OpId} {succs : List Point} {s : σ}
    (hsuffix : ops <:+ (prog.block b).ops) (hhead : ∀ o, ops.head? = some o → W o)
    (hsuccs : ∀ q ∈ succs, q.At prog W) (hS : S s) :
    (runBlock prog P (prog.block b) a succs ops).Ends s (fun _ _ => True) E := by
  induction ops generalizing a succs s with
  | nil => exact ends_pure trivial
  | cons o rest ih =>
    have ho : W o := hhead o rfl
    obtain rfl : prog.blockOf o = b := (hs.mem_ops.mp (hsuffix.subset List.mem_cons_self)).2
    rw [runBlock]
    refine .bind ((hf.visit ho hS).mono fun st s' hv _ => (h.visit ho hS hv).1) fun st s' hS' => ?_
    cases st with
    | jump a points => exact ends_pure trivial
    | «continue» a =>
      have hpass : (prog.kind o).callee? = none →
          (follow P (prog.block (prog.blockOf o)) succs (prog.kind o) >>= fun l =>
            runBlock prog P (prog.block (prog.blockOf o)) a l rest).Ends s' (fun _ _ => True) E := by
        intro hk
        refine .bind ((follow_fails hf ho succs hS').mono fun l v hl _ =>
          follow_tracks h ho hsuccs hS' hl) fun l v hl => ?_
        exact ih ((List.suffix_cons o rest).trans hsuffix) (head_rest h hs ho hk hsuffix) hl.2 hl.1
      cases hk : prog.kind o with
      | call f => exact .bind (hf.afterCall ho hk hS') fun _ _ _ => ends_pure trivial
      | _ =>
        rw [hk] at hpass
        exact hpass rfl

theorem walk_fails (h : P.Tracks prog W S) (hf : P.Fails prog W S E) (hs : prog.Shaped)
    {first : Point} {initial : Area} {w : Walk σ} (hstack : w.stack = []) (hS : S w.state)
    (hareas : ∀ p a, w.areas.get? p = some a → p.At prog W) (hfirst : first.At prog W) :
    (prog.walk P first initial).Ends w (fun _ w' => S w'.state) E := by
  have hsafe : Safe prog P (fun s areas => S s ∧ ∀ p a, areas.get? p = some a → p.At prog W)
      (fun p _ => p.At prog W) E := by
    refine ⟨fun edge hkept hp _ _ => hf.revisit hp hkept.1, ?_⟩
    rintro v p a area s ⟨hS, hareas⟩ ⟨o, hop, ho⟩ hadmits
    have hS' : S s := hadmits.tracked h ⟨o, hop, ho⟩ hS
    obtain ⟨rest, hops⟩ := Program.ops?_of_opAt? hop
    have hhead : ∀ x, (o :: rest).head? = some x → W x := by
      rintro x ⟨⟩
      exact ho
    refine ⟨o :: rest, hops, ?_⟩
    refine (runBlock_fails h hf hs (Program.ops?_suffix hops) hhead (by simp) hS').mono ?_
    intro x s' hrun _
    exact explore_tracks h hs hS' hareas ⟨o, hop, ho⟩ hops hrun
  exact (walk_ends hsafe hstack ⟨hS, hareas⟩ hfirst).mono fun _ _ _ hkept => hkept.1

end Walk

end YieldPlan
