import YieldPlan.Proofs.ThreadRuns

/-! A thread is at an operation and inside calls, the innermost first. A call puts the entry of its
callee on top of itself, and a return goes back to what follows the call below it. Each activation
has run from the entry of its procedure to where it is now. -/

namespace YieldPlan.Program

variable (prog : Program)

/-- One step of a thread, whose next operation is on top of its calls. A thread that returns from its
own procedure is at its end. -/
inductive ThreadStep : List OpId → List OpId → Prop where
  | pass {o o' calls} : ¬ (prog.kind o).isTerminator → (prog.kind o).callee? = none →
      prog.Follows o o' → ThreadStep (o :: calls) (o' :: calls)
  | branch {o s o' calls} : prog.kind o = .terminator .branch →
      prog.Succ (prog.blockOf o) s → prog.opAt? s 0 = some o' →
      ThreadStep (o :: calls) (o' :: calls)
  | call {o f e calls} : prog.kind o = .call f → prog.entryOp? f = some e →
      ThreadStep (o :: calls) (e :: o :: calls)
  | ret {o c o' calls} : prog.kind o = .terminator .ret → prog.Follows c o' →
      ThreadStep (o :: c :: calls) (o' :: calls)

def Stack (root : ProcId) : List OpId → Prop
  | [] => False
  | [o] => ∃ e, prog.entryOp? root = some e ∧ prog.Level e o
  | o :: c :: calls => (∃ f e, prog.kind c = .call f ∧ prog.entryOp? f = some e ∧
      prog.Level e o) ∧ Stack root (c :: calls)

variable {prog} {root : ProcId}

theorem Stack.start {e : OpId} (he : prog.entryOp? root = some e) : prog.Stack root [e] :=
  ⟨e, he, .refl⟩

theorem Stack.level {o o' : OpId} {calls : List OpId} (h : prog.Stack root (o :: calls))
    (hl : prog.Level o o') : prog.Stack root (o' :: calls) := by
  cases calls with
  | nil =>
    obtain ⟨e, he, hlevel⟩ := h
    exact ⟨e, he, hlevel.trans hl⟩
  | cons c calls =>
    obtain ⟨⟨f, e, hk, he, hlevel⟩, hrest⟩ := h
    exact ⟨⟨f, e, hk, he, hlevel.trans hl⟩, hrest⟩

theorem Stack.tail {o c : OpId} {calls : List OpId} (h : prog.Stack root (o :: c :: calls)) :
    prog.Stack root (c :: calls) := h.2

theorem Stack.level_ret {o c o' : OpId} {calls : List OpId}
    (h : prog.Stack root (o :: c :: calls)) (hk : prog.kind o = .terminator .ret)
    (hf : prog.Follows c o') : prog.Level c o' := by
  obtain ⟨f, e, hkc, he, hlevel⟩ := h.1
  exact .skip .refl (OpKind.callee?_eq_some.mpr hkc) he hlevel hk hf

theorem Stack.step {s s' : List OpId} (h : prog.Stack root s) (hs : prog.ThreadStep s s') :
    prog.Stack root s' := by
  cases hs with
  | pass ht hc hf => exact h.level (.next .refl ht hc hf)
  | branch hk hs ho => exact h.level (.branch .refl hk hs ho)
  | call hk he => exact ⟨⟨_, _, hk, he, .refl⟩, h⟩
  | ret hk hf => exact h.tail.level (h.level_ret hk hf)

theorem Stack.calls (hs : prog.Shaped) {s : List OpId} (h : prog.Stack root s) :
    ∀ o ∈ s, o < prog.ops.size ∧ Relation.ReflTransGen prog.Calls root (prog.procOf o) := by
  induction s with
  | nil => simp
  | cons o calls ih =>
    cases calls with
    | nil =>
      obtain ⟨e, he, hlevel⟩ := h
      obtain ⟨-, helt, hproc⟩ := hs.entryOp_ok he
      obtain ⟨ho, hp⟩ := hs.procOf_level helt hlevel
      intro x hx
      obtain rfl := List.mem_singleton.mp hx
      rw [hp, hproc]
      exact ⟨ho, .refl⟩
    | cons c calls =>
      obtain ⟨⟨f, e, hk, he, hlevel⟩, hrest⟩ := h
      obtain ⟨-, helt, hproc⟩ := hs.entryOp_ok he
      obtain ⟨ho, hp⟩ := hs.procOf_level helt hlevel
      refine List.forall_mem_cons.mpr ⟨⟨ho, ?_⟩, ih hrest⟩
      obtain ⟨hc, hcalls⟩ := ih hrest c List.mem_cons_self
      rw [hp, hproc]
      exact hcalls.tail ⟨c, hc, rfl, by rw [hk]; rfl⟩

namespace Shaped

variable (hs : prog.Shaped)

include hs

theorem procOf_follows {o o' : OpId} (h : prog.Follows o o') : prog.procOf o' = prog.procOf o := by
  rw [procOf, procOf, (hs.follows_iff.mp h).2.1]

theorem procOf_succ {o o' : OpId} {s : BlockId} (h : prog.Succ (prog.blockOf o) s)
    (ho : prog.opAt? s 0 = some o') : prog.procOf o' = prog.procOf o := by
  rw [procOf, procOf, (hs.opAt?_iff.mp ho).2.1]
  exact (hs.succ _ (lt_of_succ h) s h).2

end Shaped

theorem Level.hop (hc : prog.Coherent) {b s : BlockId} {o x : OpId} (hb : prog.Hop b s)
    (ho : prog.opAt? b 0 = some o) (h : prog.Level o x) :
    x = o ∨ ∃ o', prog.opAt? s 0 = some o' ∧ prog.Level o' x := by
  obtain ⟨o₁, ho₁, hk, hsuccs⟩ := hop_ok hb
  obtain rfl : o = o₁ := Option.some.inj (ho.symm.trans ho₁)
  have hblock : prog.blockOf o = b := (hc.opAt?_iff.mp ho).2.1
  clear ho ho₁
  induction h with
  | refl => exact .inl rfl
  | next _ ht hcall hf ih =>
    rcases ih hk hblock with rfl | ⟨o', ho', hl⟩
    · exact absurd (by rw [hk]; rfl) ht
    · exact .inr ⟨o', ho', .next hl ht hcall hf⟩
  | skip _ hcall he hr hkr hf ih _ =>
    rcases ih hk hblock with rfl | ⟨o', ho', hl⟩
    · rw [hk] at hcall
      cases hcall
    · exact .inr ⟨o', ho', .skip hl hcall he hr hkr hf⟩
  | branch _ hkx hsx hox ih =>
    rcases ih hk hblock with rfl | ⟨o', ho', hl⟩
    · rw [Succ, hblock, hsuccs] at hsx
      rw [List.mem_singleton.mp hsx] at hox
      exact .inr ⟨_, hox, .refl⟩
    · exact .inr ⟨o', ho', .branch hl hkx hsx hox⟩

/-- Over blocks that only branch on, every path comes to the last of them, unless it ends before. -/
theorem Level.hops (hc : prog.Coherent) {b b' : BlockId} {o x : OpId}
    (hb : Relation.ReflTransGen prog.Hop b b') (ho : prog.opAt? b 0 = some o)
    (h : prog.Level o x) (hx : prog.kind x ≠ .terminator .branch) :
    ∃ o', prog.opAt? b' 0 = some o' ∧ prog.Level o' x := by
  induction hb using Relation.ReflTransGen.head_induction_on generalizing o with
  | refl => exact ⟨o, ho, h⟩
  | head hhop _ ih =>
    rcases h.hop hc hhop ho with rfl | ⟨o', ho', hl⟩
    · obtain ⟨o₁, ho₁, hk, -⟩ := hop_ok hhop
      rw [Option.some.inj (ho.symm.trans ho₁)] at hx
      exact absurd hk hx
    · exact ih ho' hl

theorem entry_hops {f : ProcId} {e : OpId} (he : prog.entryOp? f = some e) :
    ∃ b, prog.opAt? b 0 = some e ∧ Relation.ReflTransGen prog.Hop b (prog.firstPoint f).block := by
  obtain ⟨b, hb, hat⟩ := Option.bind_eq_some_iff.mp he
  refine ⟨b, hat, ?_⟩
  rw [firstPoint, entryBlock, hb]
  exact skipHops_hops _ _ _

variable {returns : ProcId → Prop}

namespace Shaped

variable (hs : prog.Shaped)

include hs

theorem advance_hops (returns : ProcId → Prop) {b b' : BlockId} {o : OpId}
    (hb : Relation.ReflTransGen prog.Hop b b') (ho : prog.opAt? b 0 = some o) :
    ∃ o', prog.opAt? b' 0 = some o' ∧ Relation.ReflTransGen (prog.Advance returns) o o' := by
  induction hb using Relation.ReflTransGen.head_induction_on generalizing o with
  | refl => exact ⟨o, ho, .refl⟩
  | @head b s hhop _ ih =>
    obtain ⟨o₁, ho₁, hk, hsuccs⟩ := hop_ok hhop
    obtain rfl : o = o₁ := Option.some.inj (ho.symm.trans ho₁)
    obtain ⟨holt, hblock, -⟩ := hs.opAt?_iff.mp ho
    have hsucc : prog.Succ (prog.blockOf o) s := by
      rw [Succ, hblock, hsuccs]
      exact List.mem_singleton_self s
    obtain ⟨x, hx⟩ := hs.exists_first (hs.succ _ (hs.blockOf_lt holt) s hsucc).1
    obtain ⟨o', ho', hpath⟩ := ih hx
    exact ⟨o', ho', .head (.branch hk hsucc hx) hpath⟩

theorem reached_call (hr : ∀ f < prog.procs.size, Reachability.Returns prog returns f → returns f)
    {o : OpId} {f : ProcId} {calls : List OpId} (h : prog.Stack root (o :: calls))
    (hk : prog.kind o = .call f) : ∃ first, (prog.firstPoint root).op? prog = some first ∧
      Relation.ReflTransGen (prog.Advance returns) first o := by
  induction calls generalizing o f with
  | nil =>
    obtain ⟨e, he, hlevel⟩ := h
    obtain ⟨b, hb, hhops⟩ := entry_hops he
    obtain ⟨first, hfirst, hlevel⟩ := hlevel.hops hs.toCoherent hhops hb (by simp [hk])
    exact ⟨first, hfirst, (hs.advance_of_level hr hlevel).1⟩
  | cons c calls ih =>
    obtain ⟨⟨g, e, hkc, he, hlevel⟩, hrest⟩ := h
    obtain ⟨first, hfirst, hpath⟩ := ih hrest hkc
    exact ⟨first, hfirst, (hpath.tail (.enter (OpKind.callee?_eq_some.mpr hkc) he)).trans
      (hs.advance_of_level hr hlevel).1⟩

end Shaped

end YieldPlan.Program
