import YieldPlan.CallGraph
import YieldPlan.Proofs.ControlFlow
import YieldPlan.Proofs.DepthFirst

/-! Without recursion every strong component of the call graph is a single procedure, so the order
of the components is an order of the procedures, and it puts all that a procedure calls or spawns
before the procedure. -/

namespace YieldPlan

variable {prog : Program}

/-- The call graph of a program whose targets exist. -/
def Program.calls (prog : Program) : CallGraph :=
  { size := prog.procs.size, edges := prog.opIds.filterMap prog.callEdge? }

theorem Program.mem_edges {e : CallEdge} : e ∈ prog.calls.edges ↔
    ∃ o < prog.ops.size, prog.procOf o = e.caller ∧ (prog.kind o).callEdge? = some e.target ∧
      e.site = o := by
  simp only [calls, List.mem_filterMap, opIds, List.mem_range, callEdge?, Option.map_eq_some_iff]
  constructor
  · rintro ⟨o, ho, f, hf, rfl⟩
    exact ⟨o, ho, rfl, hf, rfl⟩
  · rintro ⟨o, ho, hc, hf, hs⟩
    refine ⟨o, ho, e.target, hf, ?_⟩
    rw [hc, ← hs]

theorem Program.callGraph_eq (hhome : ∀ o < prog.ops.size, prog.procOf o < prog.procs.size)
    (ht : ∀ o < prog.ops.size, ∀ f, (prog.kind o).callEdge? = some f → f < prog.procs.size) :
    prog.callGraph = .ok prog.calls := by
  have hall : prog.calls.edges.all fun e =>
      e.caller < prog.procs.size && e.target < prog.procs.size := by
    rw [List.all_eq_true]
    intro e he
    obtain ⟨o, ho, hc, hf, -⟩ := mem_edges.mp he
    have hcaller : e.caller < prog.procs.size := hc ▸ hhome o ho
    simp [hcaller, ht o ho _ hf]
  rw [callGraph]
  exact if_pos hall

theorem Program.Coherent.procOf_lt (h : prog.Coherent) :
    ∀ o < prog.ops.size, prog.procOf o < prog.procs.size :=
  fun o ho => h.proc_lt _ (h.block_lt o ho)

theorem Program.Coherent.callGraph_ok (h : prog.Coherent)
    (ht : ∀ o < prog.ops.size, ∀ f, (prog.kind o).callEdge? = some f → f < prog.procs.size) :
    prog.callGraph = .ok prog.calls := Program.callGraph_eq h.procOf_lt ht

theorem Program.of_callGraph {g : CallGraph} (h : prog.callGraph = .ok g) : g = prog.calls ∧
    ∀ o < prog.ops.size, ∀ f, (prog.kind o).callEdge? = some f → f < prog.procs.size := by
  simp only [callGraph] at h
  split at h
  · next hall =>
    cases h
    refine ⟨rfl, fun o ho f hf => ?_⟩
    have hedge : (⟨prog.procOf o, f, o⟩ : CallEdge) ∈ prog.calls.edges :=
      mem_edges.mpr ⟨o, ho, rfl, hf, rfl⟩
    have := List.all_eq_true.mp hall _ hedge
    rw [Bool.and_eq_true] at this
    exact of_decide_eq_true this.2
  · cases h

theorem Program.mem_targets {p q : ProcId} : q ∈ prog.calls.targets p ↔ prog.Calls p q := by
  simp only [CallGraph.targets, List.mem_reverse, List.mem_map, List.mem_filter, mem_edges,
    decide_eq_true_eq]
  constructor
  · rintro ⟨e, ⟨⟨o, ho, hc, hf, -⟩, rfl⟩, rfl⟩
    exact ⟨o, ho, hc, hf⟩
  · rintro ⟨o, ho, hc, hf⟩
    exact ⟨⟨p, q, o⟩, ⟨⟨o, ho, hc, hf, rfl⟩, rfl⟩, rfl⟩

/-- One procedure calls another. Thread creations do not count. -/
def Program.DirectCall (prog : Program) (p q : ProcId) : Prop :=
  ∃ o < prog.ops.size, prog.procOf o = p ∧ (prog.kind o).callee? = some q

theorem Program.DirectCall.calls {p q : ProcId} (h : prog.DirectCall p q) : prog.Calls p q := by
  obtain ⟨o, ho, hp, hq⟩ := h
  exact ⟨o, ho, hp, callEdge?_of_callee? hq⟩

namespace CallGraph

theorem order_ok {g : CallGraph} {name : ProcId → String} {cs : List (List ProcId)}
    (h : ∀ c ∈ cs, g.isRecursive c = false) : g.order name cs = .ok cs.flatten := by
  induction cs with
  | nil => rfl
  | cons c cs ih =>
    rw [order, h c List.mem_cons_self, ih fun d hd => h d (List.mem_cons_of_mem _ hd)]
    rfl

theorem isRecursive_of_order {g : CallGraph} {name : ProcId → String} {cs : List (List ProcId)}
    {order : List ProcId} (h : g.order name cs = .ok order) : ∀ c ∈ cs, g.isRecursive c = false := by
  induction cs generalizing order with
  | nil => simp
  | cons c cs ih =>
    rw [CallGraph.order] at h
    split at h
    · cases h
    · next hc =>
      obtain ⟨rest, hrest, -⟩ := Checked.bind_ok.mp h
      exact List.forall_mem_cons.mpr ⟨Bool.eq_false_iff.mpr hc, ih hrest⟩

theorem order_fails_at {g : CallGraph} {name : ProcId → String} {cs : List (List ProcId)}
    {e : Failure} (h : g.order name cs = .error e) :
    ∃ c ∈ cs, g.isRecursive c = true ∧
      e = .error ⟨.recursion (sortTexts (c.map name)), none⟩ := by
  induction cs with
  | nil => cases h
  | cons c cs ih =>
    rw [order] at h
    split at h
    · next hrec =>
      cases h
      exact ⟨c, List.mem_cons_self, hrec, rfl⟩
    · cases hrest : g.order name cs with
      | ok order =>
        rw [hrest] at h
        cases h
      | error e' =>
        rw [hrest] at h
        cases h
        obtain ⟨d, hd, hrec, he⟩ := ih hrest
        exact ⟨d, List.mem_cons_of_mem _ hd, hrec, he⟩

section Components

variable {cs : List (List ProcId)} {c : List ProcId}
  (hcs : Graph.IsComponents (List.range prog.procs.size) prog.calls.targets cs)

theorem reaches_targets {p q : ProcId} :
    Graph.Reaches prog.calls.targets p q ↔ Relation.ReflTransGen prog.Calls p q := by
  constructor
  · intro h
    exact Relation.ReflTransGen.mono (fun _ _ => Program.mem_targets.mp) _ _ h
  · intro h
    exact Relation.ReflTransGen.mono (fun _ _ => Program.mem_targets.mpr) _ _ h

include hcs

theorem strong_component (hc : c ∈ cs) {p : ProcId} (hp : p ∈ c) (q : ProcId) : q ∈ c ↔
    Relation.ReflTransGen prog.Calls p q ∧ Relation.ReflTransGen prog.Calls q p := by
  rw [← reaches_targets, ← reaches_targets]
  exact hcs.strong c hc p hp q

/-- A component is recursive if one of its procedures enters itself, directly or through others. -/
theorem isRecursive_iff (hc : c ∈ cs) :
    prog.calls.isRecursive c = true ↔ ∃ p ∈ c, Relation.TransGen prog.Calls p p := by
  have hstrong := fun p hp => strong_component hcs hc (p := p) hp
  have hnodup : c.Nodup := (List.nodup_flatten.mp hcs.nodup).1 c hc
  match c with
  | [] => exact absurd rfl (hcs.ne_nil [] hc)
  | [p] =>
    rw [isRecursive, List.contains_iff_mem, Program.mem_targets]
    constructor
    · intro hpp
      exact ⟨p, List.mem_singleton_self p, .single hpp⟩
    · rintro ⟨q, hq, hcycle⟩
      obtain rfl := List.mem_singleton.mp hq
      obtain ⟨r, hqr, hrq⟩ := Relation.TransGen.head'_iff.mp hcycle
      have hr : r ∈ [q] := (hstrong q hq r).mpr ⟨.single hqr, hrq⟩
      rwa [List.mem_singleton.mp hr] at hqr
  | p :: q :: rest =>
    have hne : q ≠ p := by
      intro heq
      simp [heq] at hnodup
    obtain ⟨hto, hback⟩ := (hstrong p List.mem_cons_self q).mp (by simp)
    have hcycle := (Relation.reflTransGen_iff_eq_or_transGen.mp hto).resolve_left hne
    exact iff_of_true rfl ⟨p, List.mem_cons_self, hcycle.trans_left hback⟩

theorem exists_recursive (hhome : ∀ o < prog.ops.size, prog.procOf o < prog.procs.size)
    {p : ProcId} (hcycle : Relation.TransGen prog.Calls p p) :
    ∃ c ∈ cs, prog.calls.isRecursive c = true := by
  have hp : p < prog.procs.size := by
    obtain ⟨q, ⟨o, ho, rfl, -⟩, -⟩ := Relation.TransGen.head'_iff.mp hcycle
    exact hhome o ho
  obtain ⟨c, hc, hpc⟩ := List.mem_flatten.mp ((hcs.mem_iff p).mpr (List.mem_range.mpr hp))
  exact ⟨c, hc, (isRecursive_iff hcs hc).mpr ⟨p, hpc, hcycle⟩⟩

theorem not_isRecursive_of_acyclic (hacyclic : ∀ p, ¬ Relation.TransGen prog.Calls p p)
    (hc : c ∈ cs) : prog.calls.isRecursive c = false := by
  rw [← Bool.not_eq_true, isRecursive_iff hcs hc]
  rintro ⟨p, -, hcycle⟩
  exact hacyclic p hcycle

theorem component_of_acyclic (hacyclic : ∀ p, ¬ Relation.TransGen prog.Calls p p) (hc : c ∈ cs) :
    ∃ p, c = [p] := by
  have hrec := not_isRecursive_of_acyclic hcs hacyclic hc
  unfold isRecursive at hrec
  split at hrec
  · exact ⟨_, rfl⟩
  · cases hrec

end Components

theorem eq_map_flatten {cs : List (List ProcId)} (h : ∀ c ∈ cs, ∃ p, c = [p]) :
    cs = cs.flatten.map fun p => [p] := by
  induction cs with
  | nil => rfl
  | cons c cs ih =>
    obtain ⟨p, rfl⟩ := h c List.mem_cons_self
    have := ih fun d hd => h d (List.mem_cons_of_mem _ hd)
    simpa using this

theorem targets_closed
    (ht : ∀ o < prog.ops.size, ∀ f, (prog.kind o).callEdge? = some f → f < prog.procs.size) :
    ∀ v ∈ List.range prog.procs.size, ∀ w ∈ prog.calls.targets v,
      w ∈ List.range prog.procs.size := by
  intro v _ w hw
  obtain ⟨o, ho, -, hf⟩ := Program.mem_targets.mp hw
  exact List.mem_range.mpr (ht o ho w hf)

/-- Without recursion there is an order of all procedures in which targets come first. -/
theorem postOrder_ok
    (ht : ∀ o < prog.ops.size, ∀ f, (prog.kind o).callEdge? = some f → f < prog.procs.size)
    (hacyclic : ∀ p, ¬ Relation.TransGen prog.Calls p p) :
    ∃ order, prog.calls.postOrder prog = .ok order ∧ order.Nodup ∧
      (∀ p, p ∈ order ↔ p < prog.procs.size) ∧
      ∀ before p after, order = before ++ p :: after → ∀ q, prog.Calls p q → q ∈ before := by
  have hcs := Graph.components_spec (targets_closed ht)
  have hone : ∀ c ∈ Graph.components (List.range prog.procs.size) prog.calls.targets,
      ∃ p, c = [p] := fun c hc => component_of_acyclic hcs hacyclic hc
  refine ⟨_, order_ok fun c hc => not_isRecursive_of_acyclic hcs hacyclic hc, hcs.nodup,
    fun p => ?_, fun before p after hsplit q hq => ?_⟩
  · exact (hcs.mem_iff p).trans List.mem_range
  · have hmap := eq_map_flatten hone
    have hsplit' : (Graph.components (List.range prog.procs.size) prog.calls.targets).flatten =
      before ++ p :: after := hsplit
    rw [hsplit', List.map_append, List.map_cons] at hmap
    rcases hcs.later _ _ _ hmap p List.mem_cons_self q
      (.single (Program.mem_targets.mpr hq)) with hqp | hqb
    · rw [List.mem_singleton.mp hqp] at hq
      exact absurd (.single hq) (hacyclic p)
    · simpa using hqb

/-- Procedures are summarized callees first. What the step of a procedure establishes from what holds
of its callees, and keeps for the others, holds of all procedures in the end. -/
theorem foldl_callees_first {α : Type} {step : α → ProcId → α} {Q : α → ProcId → Prop}
    {order : List ProcId}
    (hcallees : ∀ before p after, order = before ++ p :: after →
      ∀ q, prog.Calls p q → q ∈ before)
    (hself : ∀ a p, (∀ q, prog.Calls p q → Q a q) → Q (step a p) p)
    (hothers : ∀ a p q, q ≠ p → Q a q → Q (step a p) q) (a : α) :
    ∀ p ∈ order, Q (order.foldl step a) p := by
  -- After a part of the order, the procedures of that part are summarized.
  suffices hall : ∀ after before a, order = before ++ after → (∀ p ∈ before, Q a p) →
      ∀ p ∈ order, Q (after.foldl step a) p from hall order [] a rfl (by simp)
  intro after
  induction after with
  | nil =>
    intro before a hsplit hbefore p hp
    rw [hsplit, List.append_nil] at hp
    exact hbefore p hp
  | cons p after ih =>
    intro before a hsplit hbefore
    apply ih (before ++ [p]) (step a p) (by simpa using hsplit)
    intro q hq
    by_cases hqp : q = p
    · subst hqp
      exact hself a q fun f hf => hbefore f (hcallees before q after hsplit f hf)
    · have hq' : q ∈ before := (List.mem_append.mp hq).resolve_right (by simpa using hqp)
      exact hothers a p q hqp (hbefore q hq')

theorem callers_after {order : List ProcId} (hnd : order.Nodup)
    (hcallees : ∀ before p after, order = before ++ p :: after →
      ∀ q, prog.Calls p q → q ∈ before)
    {before after : List ProcId} {p q : ProcId} (hsplit : order = before ++ p :: after)
    (hq : q ∈ order) (hcall : prog.Calls q p) : q ∈ after := by
  have hparts := List.nodup_append.mp (hsplit ▸ hnd)
  have hp : p ∉ before := fun hp => hparts.2.2 p hp p List.mem_cons_self rfl
  rcases List.mem_append.mp (hsplit ▸ hq) with hb | hr
  · obtain ⟨b₁, b₂, rfl⟩ := List.append_of_mem hb
    rw [List.append_assoc] at hsplit
    exact absurd (List.mem_append_left _ (hcallees b₁ q _ hsplit p hcall)) hp
  · rcases List.mem_cons.mp hr with rfl | hr
    · exact absurd (hcallees before q after hsplit q hcall) hp
    · exact hr

/-- Procedures are taken callers first. What holds of the procedures taken so far, and is carried on by
the step of one of which no callee has been taken, holds of all procedures in the end. -/
theorem foldl_callers_first {α : Type} {step : α → ProcId → α} {Q : (ProcId → Prop) → α → Prop}
    {order : List ProcId} (hnd : order.Nodup)
    (hcallees : ∀ before p after, order = before ++ p :: after →
      ∀ q, prog.Calls p q → q ∈ before)
    (hstep : ∀ done a p, p ∈ order → Q done a → ¬ done p →
      (∀ q, prog.Calls p q → ¬ done q ∧ q ≠ p) → Q (fun q => done q ∨ q = p) (step a p))
    {a : α} (h : Q (fun _ => False) a) : Q (· ∈ order) (order.reverse.foldl step a) := by
  -- The procedures that are taken are the last part of the order.
  suffices hall : ∀ (l taken : List ProcId) a, order = l.reverse ++ taken → Q (· ∈ taken) a →
      Q (· ∈ order) (l.foldl step a) by
    apply hall order.reverse [] a (by simp)
    simpa using h
  intro l
  induction l with
  | nil =>
    intro taken a hsplit htaken
    rw [hsplit]
    exact htaken
  | cons p l ih =>
    intro taken a hsplit htaken
    have hsplit' : order = l.reverse ++ p :: taken := by simpa using hsplit
    have hparts := List.nodup_append.mp (hsplit' ▸ hnd)
    apply ih (p :: taken) (step a p) hsplit'
    have hmore : Q (fun q => q ∈ taken ∨ q = p) (step a p) := by
      apply hstep _ a p (by simp [hsplit']) htaken (List.nodup_cons.mp hparts.2.1).1
      intro q hq
      have hbefore := hcallees l.reverse p taken hsplit' q hq
      exact ⟨fun hq => hparts.2.2 q hbefore q (List.mem_cons_of_mem _ hq) rfl,
        hparts.2.2 q hbefore p List.mem_cons_self⟩
    simpa only [List.mem_cons, or_comm] using hmore

theorem acyclic_of_postOrder (hc : prog.Coherent)
    (ht : ∀ o < prog.ops.size, ∀ f, (prog.kind o).callEdge? = some f → f < prog.procs.size)
    {order : List ProcId} (h : prog.calls.postOrder prog = .ok order) (p : ProcId) :
    ¬ Relation.TransGen prog.Calls p p := by
  intro hcycle
  have hcs := Graph.components_spec (targets_closed ht)
  obtain ⟨c, hmem, hrec⟩ := exists_recursive hcs hc.procOf_lt hcycle
  rw [isRecursive_of_order h c hmem] at hrec
  cases hrec

end CallGraph

end YieldPlan
