import YieldPlan.Proofs.ThreadPaths
import YieldPlan.Proofs.ThreadSites

/-! An execution interleaves the threads created so far. While a procedure was entered once, all
that was executed in it leads to where it is now, so an operation that runs twice there reaches
itself. Calls and creations that enter a procedure twice are then found callers first. Two creations
in different procedures are found only if one reaches the other, and reachability never leads from a
callee back into its caller or from one thread into another. -/

namespace YieldPlan

namespace Program

variable (prog : Program)

def started (o : OpId) : List (List OpId) :=
  (((prog.kind o).spawn?.bind prog.entryOp?).map fun e => [e]).toList

/-- An execution of the whole program: the operations that ran, and the threads as stacks of calls.
Any thread may take the next step. -/
inductive Execution (root : ProcId) : List OpId → List (List OpId) → Prop where
  | start {e} : prog.entryOp? root = some e → Execution root [] [[e]]
  | step {ran before o calls s after} :
      Execution root ran (before ++ (o :: calls) :: after) → prog.ThreadStep (o :: calls) s →
      Execution root (ran ++ [o]) (before ++ s :: after ++ prog.started o)

/-- How often a procedure was entered. -/
def activations (root : ProcId) (ran : List OpId) (p : ProcId) : Nat :=
  ran.countP (fun o => (prog.kind o).callEdge? = some p) + if p = root then 1 else 0

/-- An operation of a procedure leads to where the activations of that procedure are now. The calls
of the stack ran already, its top comes next. -/
def Leads (returns : ProcId → Prop) (p : ProcId) (x : OpId) : List OpId → Prop
  | [] => True
  | o :: calls => (prog.procOf o = p → Relation.TransGen (prog.Flow returns) x o) ∧
      ∀ c ∈ calls, prog.procOf c = p → Relation.ReflTransGen (prog.Flow returns) x c

variable {prog} {returns : ProcId → Prop} {root p : ProcId} {ran : List OpId}

theorem mem_started {o : OpId} {t : List OpId} : t ∈ prog.started o ↔
    ∃ q, (prog.kind o).spawn? = some q ∧ ∃ e, prog.entryOp? q = some e ∧ t = [e] := by
  simp only [started, Option.mem_toList, Option.map_eq_some_iff, Option.bind_eq_some_iff]
  constructor
  · rintro ⟨e, ⟨q, hq, he⟩, rfl⟩
    exact ⟨q, hq, e, he, rfl⟩
  · rintro ⟨q, hq, e, he, rfl⟩
    exact ⟨e, ⟨q, hq, he⟩, rfl⟩

theorem edge_count (k : OpKind) (p : ProcId) :
    (if k.callEdge? = some p then 1 else 0) =
      (if k.callee? = some p then 1 else 0) + if k.spawn? = some p then 1 else 0 := by
  cases k with
  | library c => cases c <;> simp [OpKind.callEdge?, OpKind.callee?, OpKind.spawn?]
  | _ => simp [OpKind.callEdge?, OpKind.callee?, OpKind.spawn?]

theorem activations_append (o : OpId) :
    prog.activations root (ran ++ [o]) p =
      prog.activations root ran p + if (prog.kind o).callEdge? = some p then 1 else 0 := by
  simp only [activations, List.countP_append, List.countP_singleton, decide_eq_true_eq]
  omega

theorem activations_mono {ran' : List OpId} :
    prog.activations root ran p ≤ prog.activations root (ran ++ ran') p := by
  simp only [activations, List.countP_append]
  omega

theorem Leads.mem {s : List OpId} {x : OpId} (h : prog.Leads returns p x s) :
    ∀ y ∈ s, prog.procOf y = p → Relation.ReflTransGen (prog.Flow returns) x y := by
  cases s with
  | nil => simp
  | cons o calls => exact List.forall_mem_cons.mpr ⟨fun ho => (h.1 ho).to_reflTransGen, h.2⟩

theorem leads_of_absent {s : List OpId} {x : OpId} (h : ∀ y ∈ s, prog.procOf y ≠ p) :
    prog.Leads returns p x s := by
  cases s with
  | nil => trivial
  | cons o calls =>
    obtain ⟨ho, hcalls⟩ := List.forall_mem_cons.mp h
    exact ⟨fun hp => absurd hp ho, fun c hc hp => absurd hp (hcalls c hc)⟩

namespace Shaped

variable (hs : prog.Shaped)

include hs

theorem count_step {o : OpId} {calls s : List OpId} (h : prog.ThreadStep (o :: calls) s) :
    s.countP (fun x => prog.procOf x = p) ≤
      (o :: calls).countP (fun x => prog.procOf x = p) +
        if (prog.kind o).callee? = some p then 1 else 0 := by
  cases h with
  | pass ht hc hf =>
    simp only [List.countP_cons, hs.procOf_follows hf]
    omega
  | branch hk hb ho =>
    simp only [List.countP_cons, hs.procOf_succ hb ho]
    omega
  | @call o f e calls hk he =>
    have hproc := (hs.entryOp_ok he).2.2
    rw [OpKind.callee?_eq_some.mpr hk]
    simp only [List.countP_cons, hproc, decide_eq_true_eq, Option.some.injEq]
    omega
  | ret hk hf =>
    simp only [List.countP_cons, hs.procOf_follows hf]
    omega

theorem count_started (o : OpId) :
    (prog.started o).flatten.countP (fun x => prog.procOf x = p) ≤
      if (prog.kind o).spawn? = some p then 1 else 0 := by
  unfold started
  cases hq : (prog.kind o).spawn? with
  | none => simp
  | some q =>
    cases he : prog.entryOp? q with
    | none => simp [he]
    | some e =>
      have hproc := (hs.entryOp_ok he).2.2
      simp [he, hproc, List.countP_cons]

theorem leads_step (hr : ∀ f < prog.procs.size, Reachability.Returns prog returns f → returns f)
    {q : ProcId} {x o : OpId} {calls s : List OpId} (hq : prog.Stack q (o :: calls))
    (h : prog.ThreadStep (o :: calls) s) (hnew : (prog.kind o).callEdge? ≠ some p)
    (hx : ∀ y ∈ o :: calls, prog.procOf y = p → Relation.ReflTransGen (prog.Flow returns) x y) :
    prog.Leads returns p x s := by
  obtain ⟨ho, hcalls⟩ := List.forall_mem_cons.mp hx
  cases h with
  | pass ht hc hf =>
    refine ⟨fun hp => ?_, hcalls⟩
    rw [hs.procOf_follows hf] at hp
    exact .tail' (ho hp) (.next ht hc hf)
  | branch hk hb hat =>
    refine ⟨fun hp => ?_, hcalls⟩
    rw [hs.procOf_succ hb hat] at hp
    exact .tail' (ho hp) (.branch hk hb hat)
  | call hk he =>
    refine ⟨fun hp => absurd ?_ hnew, hx⟩
    rw [(hs.entryOp_ok he).2.2] at hp
    rw [hk, ← hp]
    rfl
  | @ret o c o' calls hk hf =>
    obtain ⟨hc, hcalls⟩ := List.forall_mem_cons.mp hcalls
    obtain ⟨f, e, hkc, he, hlevel⟩ := hq.1
    have hback : returns f := (hs.advance_of_level hr hlevel).2 f he hk
    refine ⟨fun hp => ?_, hcalls⟩
    rw [hs.procOf_follows hf] at hp
    exact .tail' (hc hp) (.resume (OpKind.callee?_eq_some.mpr hkc) (.inl hback) hf)

end Shaped

variable (prog returns root) in
/-- What holds in every execution. -/
structure Consistent (ran : List OpId) (threads : List (List OpId)) : Prop where
  rooted : ∀ s ∈ threads, ∃ q, prog.Stack q s ∧
    (q = root ∨ ∃ a ∈ ran, (prog.kind a).spawn? = some q)
  known : ∀ o ∈ ran, o < prog.ops.size ∧
    Relation.ReflTransGen prog.Calls root (prog.procOf o) ∧
      1 ≤ prog.activations root ran (prog.procOf o)
  frames : ∀ p, threads.flatten.countP (fun x => prog.procOf x = p) ≤
    prog.activations root ran p
  leads : ∀ p, prog.activations root ran p ≤ 1 → ∀ x ∈ ran, prog.procOf x = p →
    ∀ s ∈ threads, prog.Leads returns p x s

namespace Consistent

theorem mem_beside {before after : List (List OpId)} {s t : List OpId} (h : t ∈ before ++ after) :
    t ∈ before ++ s :: after := by
  simp only [List.mem_append, List.mem_cons] at h ⊢
  tauto

variable {before after : List (List OpId)} {o : OpId} {calls : List OpId}
  (h : prog.Consistent returns root ran (before ++ (o :: calls) :: after))

include h

theorem count_split (p : ProcId) :
    before.flatten.countP (fun x => prog.procOf x = p) +
      ((o :: calls).countP (fun x => prog.procOf x = p) +
        after.flatten.countP (fun x => prog.procOf x = p)) ≤ prog.activations root ran p := by
  have hf := h.frames p
  rwa [List.flatten_append, List.flatten_cons, List.countP_append, List.countP_append] at hf

/-- The next operation of a thread is in a procedure that the entrypoint leads to. -/
theorem next_known (hs : prog.Shaped) : o < prog.ops.size ∧
    Relation.ReflTransGen prog.Calls root (prog.procOf o) ∧
      1 ≤ prog.activations root ran (prog.procOf o) := by
  obtain ⟨q, hstack, hq⟩ := h.rooted (o :: calls) (by simp)
  obtain ⟨ho, hcalls⟩ := hstack.calls hs o List.mem_cons_self
  refine ⟨ho, ?_, ?_⟩
  · rcases hq with rfl | ⟨a, ha, hspawn⟩
    · exact hcalls
    · obtain ⟨halt, hlive, -⟩ := h.known a ha
      exact (hlive.tail ⟨a, halt, rfl, callEdge?_of_spawn? hspawn⟩).trans hcalls
  · have hcount := h.count_split (prog.procOf o)
    simp only [List.countP_cons, decide_true, if_true] at hcount
    omega

theorem alone (hone : prog.activations root ran (prog.procOf o) ≤ 1) :
    (∀ s ∈ before ++ after, ∀ y ∈ s, prog.procOf y ≠ prog.procOf o) ∧
      ∀ c ∈ calls, prog.procOf c ≠ prog.procOf o := by
  have hcount := h.count_split (prog.procOf o)
  simp only [List.countP_cons, decide_true, if_true] at hcount
  have hzero : ∀ l : List OpId, l.countP (fun x => prog.procOf x = prog.procOf o) = 0 →
      ∀ y ∈ l, prog.procOf y ≠ prog.procOf o := by
    intro l hl y hy heq
    exact List.countP_eq_zero.mp hl y hy (decide_eq_true heq)
  refine ⟨fun s hs y hy => ?_, hzero calls (by omega)⟩
  rcases List.mem_append.mp hs with hs | hs
  · exact hzero before.flatten (by omega) y (List.mem_flatten_of_mem hs hy)
  · exact hzero after.flatten (by omega) y (List.mem_flatten_of_mem hs hy)

theorem known_next (hs : prog.Shaped) : ∀ x ∈ ran ++ [o], x < prog.ops.size ∧
    Relation.ReflTransGen prog.Calls root (prog.procOf x) ∧
      1 ≤ prog.activations root ran (prog.procOf x) := by
  intro x hx
  rcases List.mem_append.mp hx with hx | hx
  · exact h.known x hx
  · rw [List.mem_singleton.mp hx]
    exact h.next_known hs

theorem rooted_step {s t : List OpId} (hstep : prog.ThreadStep (o :: calls) s)
    (ht : t = s ∨ t ∈ before ++ after ∨ t ∈ prog.started o) : ∃ q, prog.Stack q t ∧
      (q = root ∨ ∃ a ∈ ran ++ [o], (prog.kind a).spawn? = some q) := by
  have hroot : ∀ q, (q = root ∨ ∃ a ∈ ran, (prog.kind a).spawn? = some q) →
      q = root ∨ ∃ a ∈ ran ++ [o], (prog.kind a).spawn? = some q :=
    fun q hq => hq.imp_right fun ⟨a, ha, hk⟩ => ⟨a, List.mem_append_left _ ha, hk⟩
  rcases ht with rfl | ht | ht
  · obtain ⟨q, hstack, hq⟩ := h.rooted (o :: calls) (by simp)
    exact ⟨q, hstack.step hstep, hroot q hq⟩
  · obtain ⟨q, hstack, hq⟩ := h.rooted t (mem_beside ht)
    exact ⟨q, hstack, hroot q hq⟩
  · obtain ⟨q, hspawn, e, he, rfl⟩ := mem_started.mp ht
    exact ⟨q, .start he, .inr ⟨o, by simp, hspawn⟩⟩

theorem frames_step (hs : prog.Shaped) {s : List OpId} (hstep : prog.ThreadStep (o :: calls) s)
    (p : ProcId) :
    (before ++ s :: after ++ prog.started o).flatten.countP (fun x => prog.procOf x = p) ≤
      prog.activations root (ran ++ [o]) p := by
  have hcount := h.count_split p
  have hnew := hs.count_step (p := p) hstep
  have hstarted := hs.count_started (p := p) o
  have hedge := edge_count (prog.kind o) p
  rw [activations_append, List.flatten_append, List.flatten_append, List.flatten_cons,
    List.countP_append, List.countP_append, List.countP_append]
  omega

/-- While a procedure was entered once, what ran in it leads to all that is in it. The operation that
runs now is the only one there, or it ran before. -/
theorem leads_next {p : ProcId} (hone : prog.activations root ran p ≤ 1) {x : OpId}
    (hx : x ∈ ran ++ [o]) (hxp : prog.procOf x = p) :
    (∀ y ∈ o :: calls, prog.procOf y = p → Relation.ReflTransGen (prog.Flow returns) x y) ∧
      ∀ t ∈ before ++ after, prog.Leads returns p x t := by
  rcases List.mem_append.mp hx with hx | hx
  · have hleads := h.leads p hone x hx hxp
    exact ⟨(hleads _ (by simp)).mem, fun t ht => hleads t (mem_beside ht)⟩
  · obtain rfl := List.mem_singleton.mp hx
    subst hxp
    obtain ⟨hothers, hcalls⟩ := h.alone hone
    exact ⟨List.forall_mem_cons.mpr ⟨fun _ => .refl, fun c hc hp => absurd hp (hcalls c hc)⟩,
      fun t ht => leads_of_absent (hothers t ht)⟩

theorem step (hs : prog.Shaped)
    (hr : ∀ f < prog.procs.size, Reachability.Returns prog returns f → returns f) {s : List OpId}
    (hstep : prog.ThreadStep (o :: calls) s) :
    prog.Consistent returns root (ran ++ [o]) (before ++ s :: after ++ prog.started o) := by
  have hmem : ∀ t ∈ before ++ s :: after ++ prog.started o,
      t = s ∨ t ∈ before ++ after ∨ t ∈ prog.started o := by
    intro t ht
    simp only [List.mem_append, List.mem_cons] at ht ⊢
    tauto
  refine ⟨fun t ht => h.rooted_step hstep (hmem t ht), fun x hx => ?_, h.frames_step hs hstep,
    fun p hone x hx hxp t ht => ?_⟩
  · obtain ⟨hlt, hlive, hact⟩ := h.known_next hs x hx
    exact ⟨hlt, hlive, hact.trans activations_mono⟩
  · have hact := (h.known_next hs x hx).2.2
    rw [hxp] at hact
    rw [activations_append] at hone
    have hnew : (prog.kind o).callEdge? ≠ some p := by
      intro hedge
      rw [if_pos hedge] at hone
      omega
    obtain ⟨htop, hothers⟩ := h.leads_next (by omega) hx hxp
    rcases hmem t ht with rfl | ht | ht
    · obtain ⟨q, hstack, -⟩ := h.rooted (o :: calls) (by simp)
      exact hs.leads_step hr hstack hstep hnew htop
    · exact hothers t ht
    · obtain ⟨q, hspawn, e, he, rfl⟩ := mem_started.mp ht
      refine ⟨fun hp => absurd ?_ hnew, by simp⟩
      rw [(hs.entryOp_ok he).2.2] at hp
      exact callEdge?_of_spawn? (hp ▸ hspawn)

end Consistent

theorem Execution.consistent (hs : prog.Shaped)
    (hr : ∀ f < prog.procs.size, Reachability.Returns prog returns f → returns f)
    {threads : List (List OpId)} (h : prog.Execution root ran threads) :
    prog.Consistent returns root ran threads := by
  induction h with
  | @start e he =>
    have hproc := (hs.entryOp_ok he).2.2
    refine ⟨fun s hmem => ?_, by simp, fun p => ?_, by simp⟩
    · rw [List.mem_singleton.mp hmem]
      exact ⟨root, .start he, .inl rfl⟩
    · simp [activations, hproc, List.countP_cons, eq_comm]
  | step _ hstep ih => exact ih.step hs hr hstep

theorem Execution.before {threads : List (List OpId)} {ran later : List OpId} {o : OpId}
    (h : prog.Execution root (ran ++ o :: later) threads) :
    ∃ before calls after, prog.Execution root ran (before ++ (o :: calls) :: after) := by
  generalize hall : ran ++ o :: later = all at h
  induction h generalizing later with
  | start => simp at hall
  | @step ran' before o' calls s after hrun hstep ih =>
    rcases List.eq_nil_or_concat later with rfl | ⟨later', x, rfl⟩
    · obtain ⟨rfl, hx⟩ := List.append_inj' hall rfl
      cases hx
      exact ⟨before, calls, after, hrun⟩
    · rw [List.concat_eq_append, ← List.cons_append, ← List.append_assoc] at hall
      exact ih (List.append_inj' hall rfl).1

end Program

theorem exists_two_of_countP {α : Type} {q : α → Bool} {l : List α} (h : 2 ≤ l.countP q) :
    ∃ l₁ b l₂, l = l₁ ++ b :: l₂ ∧ q b ∧ ∃ a ∈ l₁, q a := by
  induction l with
  | nil => simp at h
  | cons x l ih =>
    by_cases hx : q x
    · rw [List.countP_cons_of_pos hx] at h
      obtain ⟨b, hb, hqb⟩ := List.countP_pos_iff.mp (show 0 < l.countP q by omega)
      obtain ⟨l₁, l₂, rfl⟩ := List.append_of_mem hb
      exact ⟨x :: l₁, b, l₂, rfl, hqb, x, List.mem_cons_self, hx⟩
    · rw [List.countP_cons_of_neg hx] at h
      obtain ⟨l₁, b, l₂, rfl, hqb, a, ha, hqa⟩ := ih h
      exact ⟨x :: l₁, b, l₂, rfl, hqb, a, List.mem_cons_of_mem _ ha, hqa⟩

namespace Analyzed

open Program Threads

variable {prog : Program} {mayAlias : AliasOracle} {cx : Analysis} {root p : ProcId}
  (h : Analyzed prog mayAlias cx) (hroot : prog.main = .ok root) (hc : prog.Coherent)
  (hsize : prog.ops.size ≤ BitMatrix.maxRows) {threads : List (List OpId)}

include h hc hsize

theorem consistent {ran : List OpId} (hrun : prog.Execution root ran threads) :
    prog.Consistent (fun f => cx.reach.mayReturn f = true) root ran threads :=
  hrun.consistent (h.shaped hc) (h.returns hc hsize)

theorem reach_of_order {earlier later : List OpId} {a b : OpId}
    (hrun : prog.Execution root (earlier ++ b :: later) threads) (ha : a ∈ earlier)
    (hab : prog.procOf a = prog.procOf b)
    (hone : prog.activations root (earlier ++ b :: later) (prog.procOf b) ≤ 1) :
    cx.reach.reach prog a b = true := by
  obtain ⟨before, calls, after, hbefore⟩ := hrun.before
  have hcons := h.consistent hc hsize hbefore
  have hleads := hcons.leads _ (activations_mono.trans hone) a ha hab (b :: calls) (by simp)
  exact (h.reach_iff hc hsize (hcons.known a ha).1 (hcons.next_known (h.shaped hc)).1).mpr
    (hleads.1 rfl)

include hroot

/-- A procedure that is called is not started as a thread, since two threads would own its code. -/
theorem not_called_and_created {ran : List OpId} (hrun : prog.Execution root ran threads)
    {c a : OpId} (hcr : c ∈ ran) (har : a ∈ ran) (hcall : (prog.kind c).callee? = some p)
    (hspawn : (prog.kind a).spawn? = some p) : False := by
  have hs := h.shaped hc
  have hr := h.returns hc hsize
  obtain ⟨halt, halive, -⟩ := (h.consistent hc hsize hrun).known a har
  obtain ⟨t, ht, htp⟩ := (h.exists_thread hroot).mpr (.inr ⟨a, halt, hspawn, halive⟩)
  obtain ⟨earlier, later, rfl⟩ := List.append_of_mem hcr
  obtain ⟨before, calls, after, hbefore⟩ := hrun.before
  have hcons := h.consistent hc hsize hbefore
  obtain ⟨q, hstack, hq⟩ := hcons.rooted (c :: calls) (by simp)
  obtain ⟨u, hu, huq⟩ : ∃ u ∈ cx.threads.list, u.proc = q := by
    refine (h.exists_thread hroot).mpr (hq.imp_right fun ⟨x, hx, hk⟩ => ?_)
    obtain ⟨hlt, hlive, -⟩ := hcons.known x hx
    exact ⟨x, hlt, hk, hlive⟩
  obtain ⟨first, hfirst, hpath⟩ := hs.reached_call hr hstack (OpKind.callee?_eq_some.mp hcall)
  obtain ⟨hclt, hcalls⟩ := hstack.calls hs c List.mem_cons_self
  obtain ⟨-, -, -, -, -, he⟩ := hs.entry_ok (h.targets c hclt p (callEdge?_of_callee? hcall))
  obtain ⟨b, hb, hhops⟩ := entry_hops he
  obtain ⟨x, hx, hhop⟩ := hs.advance_hops (fun f => cx.reach.mayReturn f = true) hhops hb
  obtain ⟨i, hi, rfl⟩ := Threads.exists_id ht
  obtain ⟨j, hj, rfl⟩ := Threads.exists_id hu
  have hown := (Ownership.owns_code (h.shaped hc) h.ownership hi (htp ▸ hx) .refl).1
  have hown' := (Ownership.owns_code (h.shaped hc) h.ownership hj (huq ▸ hfirst)
    ((hpath.tail (.enter hcall he)).trans hhop)).1
  obtain rfl := Option.some.inj (hown.symm.trans hown')
  have hcycle : prog.Calls (prog.procOf c) p := ⟨c, hclt, rfl, callEdge?_of_callee? hcall⟩
  rw [htp] at huq
  rw [← huq] at hcalls
  exact h.acyclic hc p (.tail' hcalls hcycle)

/-- Two creations in one procedure are related if the procedure runs once, else it is marked. -/
theorem several_of_creations {earlier later : List OpId} {a b : OpId} {repeated : List ProcId}
    (hrun : prog.Execution root (earlier ++ b :: later) threads) (ha : a ∈ earlier)
    (hka : (prog.kind a).spawn? = some p) (hkb : (prog.kind b).spawn? = some p)
    (hrel : prog.procOf a ≠ prog.procOf b →
      cx.reach.reach prog a b = true ∨ cx.reach.reach prog b a = true)
    (hcallers : ∀ q, prog.Calls q p →
      2 ≤ prog.activations root (earlier ++ b :: later) q → q ∈ repeated) :
    Several prog cx.reach (liveSites prog (prog.calls.reachableFrom root) p) repeated := by
  have hcons := h.consistent hc hsize hrun
  have hsite : ∀ x ∈ earlier ++ b :: later, (prog.kind x).spawn? = some p →
      x ∈ liveSites prog (prog.calls.reachableFrom root) p ∧ prog.Calls (prog.procOf x) p := by
    intro x hx hk
    obtain ⟨hlt, hlive, -⟩ := hcons.known x hx
    have hedge := callEdge?_of_spawn? hk
    exact ⟨(h.mem_liveSites hroot).mpr ⟨hlt, hedge, hlive⟩, x, hlt, rfl, hedge⟩
  obtain ⟨hsa, hca⟩ := hsite a (List.mem_append_left _ ha) hka
  obtain ⟨hsb, hcb⟩ := hsite b (by simp) hkb
  have hka' : (prog.kind a).spawn?.isSome := by rw [hka]; rfl
  have hkb' : (prog.kind b).spawn?.isSome := by rw [hkb]; rfl
  by_cases hone : prog.activations root (earlier ++ b :: later) (prog.procOf b) ≤ 1
  · by_cases hab : prog.procOf a = prog.procOf b
    · exact .inl ⟨a, hsa, b, hsb, hka', hkb', h.reach_of_order hc hsize hrun ha hab hone⟩
    · rcases hrel hab with hreach | hreach
      · exact .inl ⟨a, hsa, b, hsb, hka', hkb', hreach⟩
      · exact .inl ⟨b, hsb, a, hsa, hkb', hka', hreach⟩
  · exact .inr ⟨b, hsb, hkb', hcallers _ hcb (by omega)⟩

theorem again_of_calls {earlier later : List OpId} {a b : OpId} {repeated : List ProcId}
    (hrun : prog.Execution root (earlier ++ b :: later) threads) (ha : a ∈ earlier)
    (hka : (prog.kind a).callee? = some p) (hkb : (prog.kind b).callee? = some p)
    (hcallers : ∀ q, prog.Calls q p →
      2 ≤ prog.activations root (earlier ++ b :: later) q → q ∈ repeated) :
    Again prog cx.reach (liveSites prog (prog.calls.reachableFrom root) p) repeated := by
  have hcons := h.consistent hc hsize hrun
  have hsite : ∀ x ∈ earlier ++ b :: later, (prog.kind x).callee? = some p →
      x ∈ liveSites prog (prog.calls.reachableFrom root) p ∧ prog.Calls (prog.procOf x) p ∧
        (prog.kind x).spawn? = none := by
    intro x hx hk
    obtain ⟨hlt, hlive, -⟩ := hcons.known x hx
    have hedge := callEdge?_of_callee? hk
    refine ⟨(h.mem_liveSites hroot).mpr ⟨hlt, hedge, hlive⟩, ⟨x, hlt, rfl, hedge⟩, ?_⟩
    rw [OpKind.callee?_eq_some.mp hk]
    rfl
  obtain ⟨hsa, -, hka'⟩ := hsite a (List.mem_append_left _ ha) hka
  obtain ⟨hsb, hcb, hkb'⟩ := hsite b (by simp) hkb
  by_cases hab : a = b
  · subst hab
    by_cases hone : prog.activations root (earlier ++ a :: later) (prog.procOf a) ≤ 1
    · exact .inr ⟨a, hsa, hka', .inl (h.reach_of_order hc hsize hrun ha rfl hone)⟩
    · exact .inr ⟨a, hsa, hka', .inr (hcallers _ hcb (by omega))⟩
  · exact .inl ⟨a, hsa, b, hsb, hka', hkb', hab⟩

theorem ne_root {ran : List OpId} (hrun : prog.Execution root ran threads) {a : OpId}
    (ha : a ∈ ran) (hk : (prog.kind a).callEdge? = some p) : p ≠ root := by
  rintro rfl
  obtain ⟨hlt, hlive, -⟩ := (h.consistent hc hsize hrun).known a ha
  exact h.acyclic hc p (.tail' hlive ⟨a, hlt, rfl, hk⟩)

theorem repeated_of_activations {ran : List OpId} (hrun : prog.Execution root ran threads)
    (hrel : ∀ q, ∀ a ∈ ran, ∀ b ∈ ran, (prog.kind a).spawn? = some q →
      (prog.kind b).spawn? = some q → prog.procOf a ≠ prog.procOf b →
      cx.reach.reach prog a b = true ∨ cx.reach.reach prog b a = true) {p : ProcId}
    (hp : p < prog.procs.size) (htwo : 2 ≤ prog.activations root ran p) :
    p ∈ (repetition prog prog.calls cx.order cx.reach
      (prog.calls.reachableFrom root) root).repeated := by
  -- Induction along the order from its end, where callers are.
  have hall : ∀ after before, cx.order = before ++ after → ∀ p ∈ after,
      2 ≤ prog.activations root ran p → p ∈ (repetition prog prog.calls cx.order cx.reach
        (prog.calls.reachableFrom root) root).repeated := by
    intro after
    induction after with
    | nil => simp
    | cons p after ih =>
      intro before hsplit
      have hafter := ih (before ++ [p]) (by simpa using hsplit)
      refine List.forall_mem_cons.mpr ⟨fun htwo => ?_, hafter⟩
      have hcallers : ∀ q, prog.Calls q p → 2 ≤ prog.activations root ran q →
          q ∈ (repetition prog prog.calls cx.order cx.reach
            (prog.calls.reachableFrom root) root).repeated :=
        fun q hq => hafter q (h.callers_after hc hsplit hq)
      have hplt := ((h.order_spec hc).2.1 p).mp (by rw [hsplit]; simp)
      obtain ⟨x, hx, hkx⟩ : ∃ x ∈ ran, (prog.kind x).callEdge? = some p := by
        by_contra hnone
        have hzero : ran.countP (fun o => (prog.kind o).callEdge? = some p) = 0 :=
          List.countP_eq_zero.mpr fun x hx hk => hnone ⟨x, hx, of_decide_eq_true hk⟩
        rw [activations, hzero] at htwo
        split at htwo <;> omega
      have hne := h.ne_root hroot hc hsize hrun hx hkx
      rw [activations, if_neg hne] at htwo
      obtain ⟨earlier, b, later, rfl, hb, a, ha, hka⟩ := exists_two_of_countP htwo
      have har := List.mem_append_left (b :: later) ha
      obtain ⟨hsev, hag⟩ := h.marks hroot hc hne hplt
      rcases callee?_or_spawn? (of_decide_eq_true hka) with ⟨hka, -⟩ | ⟨-, hka⟩ <;>
        rcases callee?_or_spawn? (of_decide_eq_true hb) with ⟨hkb, -⟩ | ⟨-, hkb⟩
      · exact hag (h.again_of_calls hroot hc hsize hrun ha hka hkb hcallers)
      · exact (h.not_called_and_created hroot hc hsize hrun har (by simp) hka hkb).elim
      · exact (h.not_called_and_created hroot hc hsize hrun (by simp) har hkb hka).elim
      · exact (hsev (h.several_of_creations hroot hc hsize hrun ha hka hkb
          (hrel p a har b (by simp) hka hkb) hcallers)).2
  exact hall cx.order [] rfl p (((h.order_spec hc).2.1 p).mpr hp) htwo

end Analyzed

/-- A procedure that an execution starts as a thread twice is found to have several instances, if of
any two creations in different procedures that start the same procedure one reaches the other. -/
theorem two_creations_make_multi_instance {prog : Program} (hc : prog.Coherent)
    (hsize : prog.ops.size ≤ BitMatrix.maxRows) {mayAlias : AliasOracle} {cx : Analysis}
    (h : (prog.analyze mayAlias).result = .ok cx) {root : ProcId} (hroot : prog.main = .ok root)
    {ran : List OpId} {threads : List (List OpId)} (hrun : prog.Execution root ran threads)
    (hrel : ∀ q, ∀ a ∈ ran, ∀ b ∈ ran, (prog.kind a).spawn? = some q →
      (prog.kind b).spawn? = some q → prog.procOf a ≠ prog.procOf b →
      cx.reach.reach prog a b = true ∨ cx.reach.reach prog b a = true) {p : ProcId}
    (htwo : 2 ≤ ran.countP fun o => (prog.kind o).spawn? = some p) :
    (∃ t ∈ cx.threads.list, t.proc = p) ∧
      ∀ t ∈ cx.threads.list, t.proc = p → t.multiInstance = true := by
  have ha := Program.analyze_ok h
  obtain ⟨earlier, b, later, rfl, hb, a, hearlier, hka⟩ := exists_two_of_countP htwo
  have hka := of_decide_eq_true hka
  have hkb := of_decide_eq_true hb
  have hran := List.mem_append_left (b :: later) hearlier
  obtain ⟨hlt, hlive, -⟩ := (ha.consistent hc hsize hrun).known a hran
  have hedge := Program.callEdge?_of_spawn? hka
  have hne := ha.ne_root hroot hc hsize hrun hran hedge
  refine ⟨(ha.exists_thread hroot).mpr (.inr ⟨a, hlt, hka, hlive⟩), fun t ht htp => ?_⟩
  refine ha.multiInstance_of_mem hroot ht ?_
  rw [htp]
  refine ((ha.marks hroot hc hne (ha.targets a hlt p hedge)).1 ?_).1
  refine ha.several_of_creations hroot hc hsize hrun hearlier hka hkb
    (hrel p a hran b (by simp) hka hkb) fun q hq hact => ?_
  have hqlt : q < prog.procs.size := by
    obtain ⟨o, ho, rfl, -⟩ := hq
    exact hc.proc_lt _ (hc.block_lt o ho)
  exact ha.repeated_of_activations hroot hc hsize hrun hrel hqlt hact

def BuildStep.helperTwiceSteps : List BuildStep :=
  [.proc "main", .proc "helper", .proc "worker", .block 0 "entry", .block 1 "entry",
    .block 2 "entry", .op 0 (.call 1), .op 0 (.call 1), .op 0 (.terminator .ret),
    .op 1 (.library (.threadCreate 2)), .op 1 (.terminator .ret),
    .op 2 (.memory .write (.named "x")), .op 2 (.terminator .ret)]

def Program.helperTwice : Program :=
  ((BuildStep.applyAll {} BuildStep.helperTwiceSteps).toOption.getD default).1

theorem Program.built_helperTwice : Program.helperTwice.Built := by
  refine .inl ⟨BuildStep.helperTwiceSteps, .helperTwice,
    [0, 1, 2, 0, 1, 2, 0, 1, 2, 3, 4, 5, 6], ?_, ?_⟩
  · decide +kernel
  · decide +kernel

theorem Program.Execution.next {prog : Program} {root : ProcId} {ran : List OpId}
    (before after : List (List OpId)) {threads : List (List OpId)} {o : OpId} {calls s : List OpId}
    (h : prog.Execution root ran (before ++ (o :: calls) :: after))
    (hstep : prog.ThreadStep (o :: calls) s) (ht : before ++ s :: after ++ prog.started o = threads) :
    prog.Execution root (ran ++ [o]) threads := ht ▸ .step h hstep

theorem Program.helperTwice_run :
    Program.helperTwice.Execution 0 [0, 3, 4, 1, 3] [[4, 1], [5], [5]] := by
  have hcreate : Program.helperTwice.Follows 3 4 := by
    unfold Program.Follows
    decide +kernel
  have hback : Program.helperTwice.Follows 0 1 := by
    unfold Program.Follows
    decide +kernel
  have h₀ : Program.helperTwice.Execution 0 [] [[0]] := .start (by decide +kernel)
  have h₁ : Program.helperTwice.Execution 0 [0] [[3, 0]] :=
    h₀.next [] [] (.call (f := 1) (e := 3) (by decide +kernel) (by decide +kernel))
      (by decide +kernel)
  have h₂ : Program.helperTwice.Execution 0 [0, 3] [[4, 0], [5]] :=
    h₁.next [] [] (.pass (by decide +kernel) (by decide +kernel) hcreate)
      (by decide +kernel)
  have h₃ : Program.helperTwice.Execution 0 [0, 3, 4] [[1], [5]] :=
    h₂.next [] [[5]] (.ret (by decide +kernel) hback) (by decide +kernel)
  have h₄ : Program.helperTwice.Execution 0 [0, 3, 4, 1] [[3, 1], [5]] :=
    h₃.next [] [[5]] (.call (f := 1) (e := 3) (by decide +kernel) (by decide +kernel))
      (by decide +kernel)
  exact h₄.next [] [[5]]
    (.pass (by decide +kernel) (by decide +kernel) hcreate) (by decide +kernel)

theorem worker_of_helper_has_instances :
    ∃ cx, (Program.helperTwice.analyze locationAliasing).result = .ok cx ∧
      Program.helperTwice.Execution 0 [0, 3, 4, 1, 3] [[4, 1], [5], [5]] ∧
      (∃ t ∈ cx.threads.list, t.proc = 2) ∧
        ∀ t ∈ cx.threads.list, t.proc = 2 → t.multiInstance = true := by
  have hok := Checked.ok_of_toOption
    (x := (Program.helperTwice.analyze locationAliasing).result) (by decide +kernel)
  refine ⟨_, hok, Program.helperTwice_run, two_creations_make_multi_instance
    Program.built_helperTwice.coherent.1 (by decide +kernel) hok
    (show Program.helperTwice.main = .ok 0 by decide +kernel)
    Program.helperTwice_run ?_ (by decide +kernel)⟩
  have hone : ∀ a ∈ [0, 3, 4, 1, 3], (Program.helperTwice.kind a).spawn?.isSome → a = 3 := by
    decide +kernel
  intro q a ha b hb hka hkb hne
  rw [hone a ha (by rw [hka]; rfl), hone b hb (by rw [hkb]; rfl)] at hne
  exact absurd rfl hne

def BuildStep.handoverSteps : List BuildStep :=
  [.proc "main", .proc "helper", .proc "worker", .block 0 "entry", .block 1 "entry",
    .block 2 "entry", .op 0 (.call 1), .op 0 (.library (.threadCreate 2)), .op 0 (.terminator .ret),
    .op 1 (.library (.threadCreate 2)), .op 1 (.terminator .ret),
    .op 2 (.memory .write (.named "x")), .op 2 (.terminator .ret)]

def Program.handover : Program :=
  ((BuildStep.applyAll {} BuildStep.handoverSteps).toOption.getD default).1

theorem Program.built_handover : Program.handover.Built := by
  refine .inl ⟨BuildStep.handoverSteps, .handover,
    [0, 1, 2, 0, 1, 2, 0, 1, 2, 3, 4, 5, 6], ?_, ?_⟩
  · decide +kernel
  · decide +kernel

theorem Program.handover_run :
    Program.handover.Execution 0 [0, 3, 4, 1] [[2], [5], [5]] := by
  have hcallee : Program.handover.Follows 3 4 := by
    unfold Program.Follows
    decide +kernel
  have hback : Program.handover.Follows 0 1 := by
    unfold Program.Follows
    decide +kernel
  have hcaller : Program.handover.Follows 1 2 := by
    unfold Program.Follows
    decide +kernel
  have h₀ : Program.handover.Execution 0 [] [[0]] := .start (by decide +kernel)
  have h₁ : Program.handover.Execution 0 [0] [[3, 0]] :=
    h₀.next [] [] (.call (f := 1) (e := 3) (by decide +kernel) (by decide +kernel))
      (by decide +kernel)
  have h₂ : Program.handover.Execution 0 [0, 3] [[4, 0], [5]] :=
    h₁.next [] [] (.pass (by decide +kernel) (by decide +kernel) hcallee)
      (by decide +kernel)
  have h₃ : Program.handover.Execution 0 [0, 3, 4] [[1], [5]] :=
    h₂.next [] [[5]] (.ret (by decide +kernel) hback) (by decide +kernel)
  exact h₃.next [] [[5]]
    (.pass (by decide +kernel) (by decide +kernel) hcaller) (by decide +kernel)

/-- Without the condition a second instance is missed: control never leads from a callee back into
its caller. -/
theorem creations_by_callee_and_caller_are_missed :
    Program.handover.Built ∧ ∃ cx, (Program.handover.analyze locationAliasing).result = .ok cx ∧
      Program.handover.main = .ok 0 ∧
      Program.handover.Execution 0 [0, 3, 4, 1] [[2], [5], [5]] ∧
      2 ≤ [0, 3, 4, 1].countP (fun o => (Program.handover.kind o).spawn? = some 2) ∧
      cx.threads.list.map (fun t => (t.proc, t.multiInstance)) = [(0, false), (2, false)] := by
  have hok := Checked.ok_of_toOption
    (x := (Program.handover.analyze locationAliasing).result) (by decide +kernel)
  refine ⟨Program.built_handover, _, hok, by decide +kernel, Program.handover_run, ?_, ?_⟩
  · decide +kernel
  · decide +kernel

end YieldPlan
