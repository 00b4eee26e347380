import YieldPlan.Proofs.AnalysisOutcome
import YieldPlan.Proofs.ThreadPaths
import YieldPlan.Proofs.WalkInvariants

/-! The walk that assigns operations to threads steps from one operation to the next as the thread
does, so every owned operation lies on a path from the first point of its thread, and every recorded
return site stands after a call on such a path. -/

namespace YieldPlan

namespace Program

variable (prog : Program)

/-- A thread of the procedure comes to the operation from its first point. -/
def ComesTo (returns : ProcId → Prop) (root : ProcId) (o : OpId) : Prop :=
  ∃ first, (prog.firstPoint root).op? prog = some first ∧
    Relation.ReflTransGen (prog.Advance returns) first o

variable {prog} {returns : ProcId → Prop} {root : ProcId} {o o' : OpId}

theorem ComesTo.tail (h : prog.ComesTo returns root o) (ha : prog.Advance returns o o') :
    prog.ComesTo returns root o' := by
  obtain ⟨first, hfirst, hpath⟩ := h
  exact ⟨first, hfirst, hpath.tail ha⟩

theorem ComesTo.trans (h : prog.ComesTo returns root o)
    (hpath : Relation.ReflTransGen (prog.Advance returns) o o') : prog.ComesTo returns root o' := by
  induction hpath with
  | refl => exact h
  | tail _ ha ih => exact ih.tail ha

namespace Shaped

variable (hs : prog.Shaped)

include hs

theorem lt_of_advance (ha : prog.Advance returns o o') : o' < prog.ops.size := by
  cases ha with
  | next _ _ hf => exact (hs.follows_iff.mp hf).1
  | enter _ he => exact (hs.entryOp_ok he).2.1
  | resume _ _ hf => exact (hs.follows_iff.mp hf).1
  | branch _ _ ho => exact (hs.opAt?_iff.mp ho).1

theorem lt_of_comesTo (h : prog.ComesTo returns root o) : o < prog.ops.size := by
  obtain ⟨first, hfirst, hpath⟩ := h
  rcases Relation.ReflTransGen.cases_tail hpath with rfl | ⟨x, -, ha⟩
  · exact (hs.opAt?_iff.mp hfirst).1
  · exact hs.lt_of_advance ha

theorem comesTo_cases (hroot : root < prog.procs.size) (h : prog.ComesTo returns root o) :
    Relation.ReflTransGen prog.Calls root (prog.procOf o) ∧ (prog.procOf o = root ∨
      ∃ e, prog.entryOp? (prog.procOf o) = some e ∧ prog.ComesTo returns root e ∧
        Relation.ReflTransGen (prog.Advance returns) e o) := by
  obtain ⟨first, hfirst, hpath⟩ := h
  induction hpath with
  | refl =>
    have hproc : prog.procOf first = root := by
      rw [procOf, (hs.opAt?_iff.mp hfirst).2.1]
      exact (hs.firstPoint_ok hroot).2
    rw [hproc]
    exact ⟨.refl, .inl rfl⟩
  | @tail x y hx ha ih =>
    have hcomes : prog.ComesTo returns root x := ⟨first, hfirst, hx⟩
    obtain ⟨hcalls, hentry⟩ := ih
    have hstay : prog.procOf y = prog.procOf x → Relation.ReflTransGen prog.Calls root
        (prog.procOf y) ∧ (prog.procOf y = root ∨ ∃ e, prog.entryOp? (prog.procOf y) = some e ∧
          prog.ComesTo returns root e ∧ Relation.ReflTransGen (prog.Advance returns) e y) := by
      intro hsame
      rw [hsame]
      refine ⟨hcalls, hentry.imp_right ?_⟩
      rintro ⟨e, he, hcomes, hpath⟩
      exact ⟨e, he, hcomes, hpath.tail ha⟩
    cases ha with
    | next _ _ hf => exact hstay (hs.procOf_follows hf)
    | resume _ _ hf => exact hstay (hs.procOf_follows hf)
    | branch _ hsucc ho => exact hstay (hs.procOf_succ hsucc ho)
    | @enter _ f hk he =>
      obtain ⟨-, -, hproc⟩ := hs.entryOp_ok he
      rw [hproc]
      have hcall : prog.Calls (prog.procOf x) f :=
        ⟨x, hs.lt_of_comesTo hcomes, rfl, callEdge?_of_callee? hk⟩
      exact ⟨hcalls.tail hcall, .inr ⟨y, he, hcomes.tail (.enter hk he), .refl⟩⟩

theorem exists_follows (ho : o < prog.ops.size) (ht : ¬ (prog.kind o).isTerminator) :
    ∃ o', prog.Follows o o' := hs.live_after ho ht

end Shaped

end Program

namespace Ownership

open Program

variable {prog : Program} {r : Reachability} {ts : Threads} {mayAlias : AliasOracle} {t : ThreadId}

abbrev Comes (prog : Program) (r : Reachability) (ts : Threads) (t : ThreadId) : OpId → Prop :=
  prog.ComesTo (fun f => r.mayReturn f = true) (ts.get t).proc

/-- Owners come to what they own, and return sites stand after calls that some thread comes to. -/
structure Earned (prog : Program) (r : Reachability) (ts : Threads) (own : Ownership) : Prop where
  owner : ∀ o t, own.owner? o = some t → t ∈ ts.ids ∧ Comes prog r ts t o
  site : ∀ f, ∀ q ∈ own.sites f, ∃ t ∈ ts.ids, ∃ c, Comes prog r ts t c ∧
    prog.kind c = .call f ∧ q = prog.pointAfter c

theorem visit_earned {o : OpId} {a : Area} {own own' : Ownership} {st : Step} (ht : t ∈ ts.ids)
    (ho : Comes prog r ts t o) (h : own.Earned prog r ts)
    (hv : visit prog ts mayAlias t o a own = .ok st own') : own'.Earned prog r ts := by
  obtain ⟨v, u, hg, h₁⟩ := Action.bind_ok.mp hv
  obtain ⟨rfl, rfl⟩ := Action.get_ok.mp hg
  cases howner : own.owner? o with
  | none =>
    simp only [howner] at h₁
    cases h₁
    constructor
    · intro x u hx
      simp only [owner?, claim, Table.get?_put] at hx
      split at hx
      · next heq =>
        cases hx
        exact heq ▸ ⟨ht, ho⟩
      · exact h.owner x u hx
    · exact h.site
  | some first =>
    simp only [howner] at h₁
    by_cases hf : first = t
    · simp only [hf, ne_eq, not_true_eq_false, if_false] at h₁
      obtain ⟨-, rfl⟩ := Action.pure_ok.mp h₁
      exact h
    · simp only [ne_eq, hf, not_false_eq_true, if_true] at h₁
      cases h₁

theorem addSite_earned {own : Ownership} {c : OpId} {f : ProcId} (ht : t ∈ ts.ids)
    (hc : Comes prog r ts t c) (hk : prog.kind c = .call f) (h : own.Earned prog r ts) :
    (own.addSite f (prog.pointAfter c)).Earned prog r ts := by
  constructor
  · exact h.owner
  · intro g q hq
    rw [sites_addSite] at hq
    by_cases hg : g = f
    · subst hg
      rw [if_pos rfl] at hq
      split at hq
      · exact h.site g q hq
      · rcases List.mem_append.mp hq with hq | hq
        · exact h.site g q hq
        · exact ⟨t, ht, c, hc, hk, List.mem_singleton.mp hq⟩
    · rw [if_neg hg] at hq
      exact h.site g q hq

theorem processor_tracks (hs : prog.Shaped)
    (htargets : ∀ o < prog.ops.size, ∀ f, (prog.kind o).callEdge? = some f → f < prog.procs.size)
    (ht : t ∈ ts.ids) : (processor prog r ts mayAlias t).Tracks prog (Comes prog r ts t)
      (Earned prog r ts) where
  next ho hterm hk hf := ho.tail (.next hterm hk hf)
  branch := by
    intro o b ho hk hb
    obtain ⟨x, hx⟩ := hs.exists_first (hs.succ _ (lt_of_succ hb) b hb).1
    exact ⟨x, hx, ho.tail (.branch hk hb hx)⟩
  visit := by
    intro o a own st own' ho hown hv
    refine ⟨visit_earned ht ho hown hv, ?_⟩
    rw [(visit_ok hv).1]
    exact Step.within_continue _ _
  afterCall := by
    intro o f own l own' ho hk hown hcall
    have hlt := hs.lt_of_comesTo ho
    have hcallee := OpKind.callee?_eq_some.mpr hk
    obtain ⟨_, u, hm, h₁⟩ := Action.bind_ok.mp hcall
    obtain rfl := Action.modify_ok.mp hm
    obtain ⟨rfl, rfl⟩ := Action.pure_ok.mp h₁
    refine ⟨addSite_earned ht ho hk hown, ?_⟩
    have hentry : (Point.entry (prog.entryBlock f)).At prog (Comes prog r ts t) := by
      obtain ⟨-, -, -, hblock, -, he⟩ :=
        hs.entry_ok (htargets o hlt f (callEdge?_of_callee? hcallee))
      exact ⟨_, hs.opAt?_firstOp hblock, ho.tail (.enter hcallee he)⟩
    intro q hq
    split at hq
    · next hret =>
      rcases List.mem_cons.mp hq with rfl | hq
      · exact hentry
      · obtain rfl := List.mem_singleton.mp hq
        obtain ⟨o', hf⟩ := hs.exists_follows hlt (by simp [hk, OpKind.isTerminator])
        exact ⟨o', hf, ho.tail (.resume hcallee hret hf)⟩
    · obtain rfl := List.mem_singleton.mp hq
      exact hentry
  afterReturn := by
    intro o own l own' _ _ hown h
    obtain ⟨rfl, rfl⟩ := Action.pure_ok.mp h
    exact ⟨hown, by simp⟩
  revisit := by
    intro p b a edge own u own' _ hown h
    obtain ⟨-, rfl⟩ := Action.pure_ok.mp h
    exact hown

theorem addThread_earned (hs : prog.Shaped)
    (htargets : ∀ o < prog.ops.size, ∀ f, (prog.kind o).callEdge? = some f → f < prog.procs.size)
    (ht : t ∈ ts.ids) (hproc : (ts.get t).proc < prog.procs.size) {own own' : Ownership}
    (hown : own.Earned prog r ts) (h : addThread prog r ts mayAlias own t = .ok own') :
    own'.Earned prog r ts := by
  obtain ⟨w, hw, rfl⟩ := addThread_cases h
  obtain ⟨first, hfirst⟩ := (hs.firstPoint_ok hproc).1
  exact (Walk.walk_tracks (processor_tracks hs htargets ht) hs rfl hown (by simp)
    ⟨first, hfirst, first, hfirst, .refl⟩ hw).1

theorem addThreads_earned (hs : prog.Shaped)
    (htargets : ∀ o < prog.ops.size, ∀ f, (prog.kind o).callEdge? = some f → f < prog.procs.size)
    {l : List ThreadId} (hl : ∀ t ∈ l, t ∈ ts.ids ∧ (ts.get t).proc < prog.procs.size)
    {own own' : Ownership} (hown : own.Earned prog r ts)
    (h : addThreads prog r ts mayAlias own l = .ok own') : own'.Earned prog r ts := by
  refine addThreads_keep (fun t ht own₁ own₂ hown₁ h₁ => ?_) h hown
  obtain ⟨hmem, hproc⟩ := hl t ht
  exact addThread_earned hs htargets hmem hproc hown₁ h₁

theorem earned_empty : ({} : Ownership).Earned prog r ts := by
  constructor
  · intro o t h
    cases h
  · intro f q hq
    cases hq

end Ownership

namespace Analyzed

open Program

variable {prog : Program} {mayAlias : AliasOracle} {cx : Analysis} {t : ThreadId} {o : OpId}
  (h : Analyzed prog mayAlias cx) (hc : prog.Coherent)

include h

theorem proc_lt (ht : t ∈ cx.threads.ids) : (cx.threads.get t).proc < prog.procs.size := by
  obtain ⟨root, hroot⟩ := h.main
  have hmem : cx.threads.get t ∈ cx.threads.list := by
    rw [Threads.get_eq_getElem (List.mem_range.mp ht)]
    exact List.getElem_mem _
  rcases (h.exists_thread hroot).mp ⟨_, hmem, rfl⟩ with hp | ⟨x, hx, hspawn, -⟩
  · rw [hp]
    exact main_ok hroot
  · exact h.targets x hx _ (callEdge?_of_spawn? hspawn)

include hc

theorem earned : cx.ownership.Earned prog cx.reach cx.threads := by
  have hadd := Ownership.addThreads_of_ownership h.ownership
  apply Ownership.addThreads_earned (h.shaped hc) h.targets _ Ownership.earned_empty hadd
  intro t ht
  exact ⟨ht, h.proc_lt ht⟩

/-- A thread owns exactly the operations that it comes to. -/
theorem owner?_iff : cx.conflicts.owner? o = some t ↔
    t ∈ cx.threads.ids ∧ Ownership.Comes prog cx.reach cx.threads t o := by
  rw [(conflicts_ok h.conflicts).1]
  constructor
  · exact (h.earned hc).owner o t
  · rintro ⟨ht, first, hfirst, hpath⟩
    exact (Ownership.owns_code (h.shaped hc) h.ownership ht hfirst hpath).1

theorem owner?_advance {o' : OpId} (ho : cx.conflicts.owner? o = some t)
    (ha : prog.Advance (fun f => cx.reach.mayReturn f = true) o o') :
    cx.conflicts.owner? o' = some t := by
  obtain ⟨ht, hcomes⟩ := (h.owner?_iff hc).mp ho
  exact (h.owner?_iff hc).mpr ⟨ht, hcomes.tail ha⟩

/-- The return sites of a procedure stand exactly after its owned calls. -/
theorem mem_sites {f : ProcId} {q : Point} : q ∈ cx.ownership.sites f ↔
    ∃ c, (∃ t, cx.conflicts.owner? c = some t) ∧ prog.kind c = .call f ∧ q = prog.pointAfter c := by
  constructor
  · intro hq
    obtain ⟨t, ht, c, hcomes, hk, rfl⟩ := (h.earned hc).site f q hq
    exact ⟨c, ⟨t, (h.owner?_iff hc).mpr ⟨ht, hcomes⟩⟩, hk, rfl⟩
  · rintro ⟨c, ⟨t, howner⟩, hk, rfl⟩
    obtain ⟨ht, first, hfirst, hpath⟩ := (h.owner?_iff hc).mp howner
    have hkind := OpKind.callee?_eq_some.mpr hk
    exact (Ownership.owns_code (h.shaped hc) h.ownership ht hfirst hpath).2 f hkind

theorem not_calls_root (ho : cx.conflicts.owner? o = some t) :
    (prog.kind o).callee? ≠ some (cx.threads.get t).proc := by
  intro hk
  obtain ⟨ht, hcomes⟩ := (h.owner?_iff hc).mp ho
  have hs := h.shaped hc
  have hcalls := (hs.comesTo_cases (h.proc_lt ht) hcomes).1
  have hcall : prog.Calls (prog.procOf o) (cx.threads.get t).proc :=
    ⟨o, hs.lt_of_comesTo hcomes, rfl, callEdge?_of_callee? hk⟩
  exact h.acyclic hc _ (.tail' hcalls hcall)

theorem mayReturn_of_ret (hsize : prog.ops.size ≤ BitMatrix.maxRows) {f : ProcId} {c : OpId}
    (ho : cx.conflicts.owner? o = some t) (hk : prog.kind o = .terminator .ret)
    (hf : prog.procOf o = f) (hcowner : cx.conflicts.owner? c = some t)
    (hck : (prog.kind c).callee? = some f) : cx.reach.mayReturn f = true := by
  obtain ⟨ht, hcomes⟩ := (h.owner?_iff hc).mp ho
  have hs := h.shaped hc
  subst hf
  have hlt := hs.lt_of_comesTo hcomes
  rcases (hs.comesTo_cases (h.proc_lt ht) hcomes).2 with hroot | ⟨e, he, -, hpath⟩
  · rw [hroot] at hck
    exact absurd hck (h.not_calls_root hc hcowner)
  · have hflow : Relation.ReflTransGen (prog.Flow fun f => cx.reach.mayReturn f = true) e o :=
      Relation.ReflTransGen.mono (fun _ _ => Advance.flow) _ _ hpath
    exact h.returns hc hsize _ (hs.entryOp_ok he).1 ⟨o, hlt, rfl, hk, e, he,
      Relation.reflTransGen_iff_eq_or_transGen.mp hflow⟩

end Analyzed

end YieldPlan
