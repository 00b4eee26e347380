import YieldPlan.Proofs.MultiInstance
import YieldPlan.Proofs.OwnershipExact

/-! The walks of the threads succeed if no two threads come to one operation, and stop at such an
operation otherwise. On success every thread owns what it comes to, its alias sets hold its memory
operations, and the point after every owned call is recorded once. -/

namespace YieldPlan

namespace AliasSets

variable {prog : Program} {mayAlias : AliasOracle}

theorem contains_iff {s : AliasSets} {o : OpId} :
    s.contains o = true ↔ ∃ set ∈ s.sets, o ∈ set := by
  simp [contains]

theorem contains_insert {s : AliasSets} {o x : OpId} :
    (s.insert prog mayAlias o).contains x = true ↔
      s.contains x = true ∨ x = o ∧ (prog.kind o).isMemory = true := by
  unfold insert
  by_cases hskip : (!(prog.kind o).isMemory || s.contains o) = true
  · rw [if_pos hskip]
    refine (or_iff_left_of_imp ?_).symm
    rintro ⟨rfl, hmem⟩
    simpa [hmem] using hskip
  · rw [if_neg hskip]
    have hmem : (prog.kind o).isMemory = true := by
      by_contra hno
      simp [hno] at hskip
    simp only [contains_iff, hmem, and_true, List.mem_append, List.mem_filter, List.mem_singleton]
    constructor
    · rintro ⟨set, ⟨hset, -⟩ | rfl, hx⟩
      · exact .inl ⟨set, hset, hx⟩
      · rcases List.mem_append.mp ((mem_sortBy _ _ _).mp hx) with hx | hx
        · obtain ⟨old, hold, hx⟩ := List.mem_flatten.mp hx
          exact .inl ⟨old, (List.mem_filter.mp hold).1, hx⟩
        · exact .inr (List.mem_singleton.mp hx)
    · rintro (⟨set, hset, hx⟩ | rfl)
      · by_cases hmeets : meets prog mayAlias set o = true
        · refine ⟨_, .inr rfl, (mem_sortBy _ _ _).mpr (List.mem_append_left _ ?_)⟩
          exact List.mem_flatten.mpr ⟨set, List.mem_filter.mpr ⟨hset, hmeets⟩, hx⟩
        · exact ⟨set, .inl ⟨hset, by simpa using hmeets⟩, hx⟩
      · exact ⟨_, .inr rfl, (mem_sortBy _ _ _).mpr (List.mem_append_right _ (by simp))⟩

end AliasSets

namespace Ownership

open Program

variable {prog : Program} {r : Reachability} {ts : Threads} {mayAlias : AliasOracle} {t : ThreadId}
  {own own' : Ownership}

/-- Return sites are recorded once, and alias sets hold the memory operations that are owned. -/
structure Recorded (prog : Program) (own : Ownership) : Prop where
  nodup : ∀ f, (own.sites f).Nodup
  aliasSets : ∀ t o, ((own.aliasSets.get? t).getD {}).contains o = true ↔
    own.owner? o = some t ∧ (prog.kind o).isMemory = true

theorem recorded_empty : ({} : Ownership).Recorded prog where
  nodup f := by simp [sites]
  aliasSets t o := by simp [owner?, AliasSets.contains]

theorem Recorded.claim (h : own.Recorded prog) {o : OpId} (hfree : own.owner? o = none) :
    (own.claim prog mayAlias t o).Recorded prog where
  nodup := h.nodup
  aliasSets u x := by
    have howner : (own.claim prog mayAlias t o).owner? x =
        if x = o then some t else own.owner? x := Table.get?_put _ _ _ _
    have hsets : (own.claim prog mayAlias t o).aliasSets.get? u =
        if u = t then some (((own.aliasSets.get? t).getD {}).insert prog mayAlias o)
        else own.aliasSets.get? u := Table.get?_put _ _ _ _
    have hold := h.aliasSets u x
    rw [howner, hsets]
    by_cases hu : u = t
    · subst hu
      rw [if_pos rfl, Option.getD_some, AliasSets.contains_insert, hold]
      by_cases hx : x = o
      · subst hx
        simp [hfree]
      · simp [hx]
    · rw [if_neg hu, hold]
      by_cases hx : x = o
      · subst hx
        simp [hfree, Ne.symm hu]
      · simp [hx]

theorem Recorded.addSite (h : own.Recorded prog) (f : ProcId) (q : Point) :
    (own.addSite f q).Recorded prog where
  nodup g := by
    rw [sites_addSite]
    split
    · next hg =>
      subst hg
      split
      · exact h.nodup g
      · next hnew =>
        refine List.nodup_append.mpr ⟨h.nodup g, List.nodup_singleton q, ?_⟩
        rintro x hx y hy rfl
        exact hnew (List.mem_singleton.mp hy ▸ hx)
    · exact h.nodup g
  aliasSets := h.aliasSets

/-- What holds of an ownership stays true when one of the claimants takes an operation that is free, and
when a return site is added. -/
structure Maintains (prog : Program) (mayAlias : AliasOracle) (claimants : List ThreadId)
    (P : Ownership → Prop) : Prop where
  claim : ∀ {own t o}, t ∈ claimants → own.owner? o = none → P own → P (own.claim prog mayAlias t o)
  addSite : ∀ {own} f q, P own → P (own.addSite f q)

section Maintains

variable {P : Ownership → Prop} {claimants : List ThreadId}
  (hP : Maintains prog mayAlias claimants P)

include hP

theorem visit_maintains {o : OpId} {a : Area} {st : Step} (ht : t ∈ claimants) (h : P own)
    (hv : visit prog ts mayAlias t o a own = .ok st own') : P own' := by
  obtain ⟨v, u, hg, h₁⟩ := Action.bind_ok.mp hv
  obtain ⟨rfl, rfl⟩ := Action.get_ok.mp hg
  cases ho : own.owner? o with
  | none =>
    simp only [ho] at h₁
    cases h₁
    exact hP.claim ht ho h
  | some first =>
    simp only [ho] at h₁
    split at h₁
    · cases h₁
    · obtain ⟨-, rfl⟩ := Action.pure_ok.mp h₁
      exact h

theorem processor_maintains (ht : t ∈ claimants) :
    (processor prog r ts mayAlias t).Respects fun own own' => P own → P own' where
  refl _ := id
  trans hab hbc := hbc ∘ hab
  visit hv h := visit_maintains hP ht h hv
  afterCall hcall h := by
    obtain ⟨_, u, hm, h₁⟩ := Action.bind_ok.mp hcall
    obtain rfl := Action.modify_ok.mp hm
    obtain ⟨-, rfl⟩ := Action.pure_ok.mp h₁
    exact hP.addSite _ _ h
  afterReturn h := (Action.pure_ok.mp h).2 ▸ id
  revisit h := (Action.pure_ok.mp h).2 ▸ id

theorem addThread_maintains (ht : t ∈ claimants)
    (h : addThread prog r ts mayAlias own t = .ok own') (hown : P own) : P own' := by
  obtain ⟨w, hw, rfl⟩ := addThread_cases h
  exact Walk.walk_respects (processor_maintains hP ht) hw hown

theorem addThreads_maintains {l : List ThreadId} (hl : ∀ t ∈ l, t ∈ claimants)
    (h : addThreads prog r ts mayAlias own l = .ok own') (hown : P own) : P own' :=
  addThreads_keep (fun t ht _ _ hown₁ h₁ => addThread_maintains hP (hl t ht) h₁ hown₁) h hown

end Maintains

theorem addThreads_records {l : List ThreadId} (h : addThreads prog r ts mayAlias own l = .ok own')
    (hown : own.Recorded prog) : own'.Recorded prog := by
  have hP : Maintains prog mayAlias l (Recorded prog) :=
    ⟨fun _ hfree hold => hold.claim hfree, fun f q hold => hold.addSite f q⟩
  exact addThreads_maintains hP (fun _ => id) h hown

/-- The failure names an operation that two threads come to. -/
inductive Contested (prog : Program) (r : Reachability) (ts : Threads) : Failure → Prop where
  | mk {o t u} : t ∈ ts.ids → u ∈ ts.ids → t ≠ u → Comes prog r ts t o → Comes prog r ts u o →
      Contested prog r ts (.error ⟨.duplicateOwner (prog.describe o) (ts.get t).name
        (ts.get u).name, none⟩)

theorem processor_fails (ht : t ∈ ts.ids) : (processor prog r ts mayAlias t).Fails prog
    (Comes prog r ts t) (Earned prog r ts) (Contested prog r ts) where
  visit := by
    intro o a own ho hown
    refine .bind_ok (t := own) rfl ?_
    cases howner : own.owner? o with
    | none => exact .of_ok rfl trivial
    | some first =>
      by_cases hf : first = t
      · simp only [hf, ne_eq, not_true_eq_false, ↓reduceIte]
        exact .of_ok rfl trivial
      · simp only [hf, ne_eq, not_false_eq_true, ↓reduceIte]
        obtain ⟨hfirst, hcomes⟩ := hown.owner o first howner
        exact Contested.mk hfirst ht hf hcomes ho
  afterCall := fun _ _ _ => .of_ok rfl trivial
  afterReturn := fun _ _ _ => .of_ok rfl trivial
  revisit := fun _ _ => .of_ok rfl trivial

variable (hs : prog.Shaped)
  (htargets : ∀ o < prog.ops.size, ∀ f, (prog.kind o).callEdge? = some f → f < prog.procs.size)

include hs htargets

theorem addThread_outcome (ht : t ∈ ts.ids) (hproc : (ts.get t).proc < prog.procs.size)
    (hown : own.Earned prog r ts) :
    (addThread prog r ts mayAlias own t).Ends (Earned prog r ts) (Contested prog r ts) := by
  obtain ⟨first, hfirst⟩ := (hs.firstPoint_ok hproc).1
  have hwalk : (prog.walk (processor prog r ts mayAlias t) (prog.firstPoint (ts.get t).proc)
      .pre).Ends { state := own } (fun _ w => w.state.Earned prog r ts) (Contested prog r ts) :=
    Walk.walk_fails (processor_tracks hs htargets ht) (processor_fails ht) hs rfl
      hown (by simp) ⟨first, hfirst, first, hfirst, .refl⟩
  unfold addThread
  unfold Action.Ends at hwalk
  split
  · next hw =>
    rw [hw] at hwalk
    exact hwalk
  · next hw =>
    rw [hw] at hwalk
    exact hwalk

theorem addThreads_outcome {l : List ThreadId}
    (hl : ∀ t ∈ l, t ∈ ts.ids ∧ (ts.get t).proc < prog.procs.size)
    (hown : own.Earned prog r ts) :
    (addThreads prog r ts mayAlias own l).Ends (Earned prog r ts) (Contested prog r ts) := by
  induction l generalizing own with
  | nil => exact .of_ok rfl hown
  | cons t l ih =>
    obtain ⟨⟨ht, hproc⟩, hl⟩ := List.forall_mem_cons.mp hl
    exact .bind (addThread_outcome hs htargets ht hproc hown) fun own' _ hown' => ih hl hown'

end Ownership

theorem Program.ownership_eq {prog : Program} {r : Reachability} {ts : Threads}
    {mayAlias : AliasOracle}
    (hoff : (Pass.collect.values prog.extraOptions).lookup "dump-alias-sets" =
      some (.stream .null)) :
    (prog.ownership r ts mayAlias).result =
      Ownership.addThreads prog r ts mayAlias {} ts.ids := by
  have hget : (Pass.collect.values prog.extraOptions).get "dump-alias-sets" =
      .ok (.stream .null) := by
    rw [OptionValues.get, hoff]
    rfl
  simp only [Program.ownership, Traced.result_bind]
  cases Ownership.addThreads prog r ts mayAlias {} ts.ids with
  | error e => rfl
  | ok own =>
    refine Checked.bind_ok.mpr ⟨own, rfl, Checked.bind_ok.mpr ⟨(), rfl, ?_⟩⟩
    refine Checked.bind_ok.mpr ⟨Pass.collect.values prog.extraOptions, rfl, ?_⟩
    exact Checked.bind_ok.mpr ⟨_, hget, Checked.bind_ok.mpr ⟨none, rfl, rfl⟩⟩

theorem Program.Shaped.withOptions {prog : Program} (h : prog.Shaped) (options : List String) :
    ({ prog with extraOptions := options } : Program).Shaped :=
  ⟨⟨h.op_iff, h.block_lt, h.block_iff, h.proc_lt, h.nodup, h.entry⟩, h.entry_some, h.ops_ne, h.inner,
    h.last, h.succ⟩

/-- A program that was built is given options that ask for no dump, and its threads are discovered.
Its operations can be assigned to the threads if no two threads come to one operation; otherwise such
an operation is reported. A thread then owns exactly what it comes to, the return sites of a procedure
are the points after its owned calls, each once, and the alias sets of a thread hold exactly the memory
operations that it owns. -/
theorem ownership_separates_threads {base prog : Program} (hbuilt : base.Built)
    (hprog : prog = { base with extraOptions := prog.extraOptions })
    (htargets : ∀ o < prog.ops.size, ∀ f, (prog.kind o).callEdge? = some f → f < prog.procs.size)
    (hoff : (Pass.collect.values prog.extraOptions).lookup "dump-alias-sets" =
      some (.stream .null))
    {g : CallGraph} {order : List ProcId} {r : Reachability} {ts : Threads}
    (hts : (prog.threads g order r).result = .ok ts) (mayAlias : AliasOracle) :
    ((∃ own, (prog.ownership r ts mayAlias).result = .ok own) ↔
      ∀ t ∈ ts.ids, ∀ u ∈ ts.ids, t ≠ u → ∀ o,
        ¬ (Ownership.Comes prog r ts t o ∧ Ownership.Comes prog r ts u o)) ∧
    (∀ e, (prog.ownership r ts mayAlias).result = .error e → Ownership.Contested prog r ts e) ∧
    ∀ own, (prog.ownership r ts mayAlias).result = .ok own →
      (∀ o t, own.owner? o = some t ↔ t ∈ ts.ids ∧ Ownership.Comes prog r ts t o) ∧
      (∀ f, (own.sites f).Nodup ∧ ∀ q, q ∈ own.sites f ↔ ∃ t ∈ ts.ids, ∃ c,
        Ownership.Comes prog r ts t c ∧ prog.kind c = .call f ∧ q = prog.pointAfter c) ∧
      ∀ t ∈ ts.ids, ∀ o, ((own.aliasSets.get? t).getD {}).contains o = true ↔
        Ownership.Comes prog r ts t o ∧ (prog.kind o).isMemory = true := by
  have hs : prog.Shaped := hprog ▸ hbuilt.shaped.withOptions prog.extraOptions
  have hl : ∀ t ∈ ts.ids, t ∈ ts.ids ∧ (ts.get t).proc < prog.procs.size := fun t ht =>
    ⟨ht, (Program.threads_start hts (List.mem_range.mp ht)).1.lt htargets⟩
  have heq : (prog.ownership r ts mayAlias).result =
      Ownership.addThreads prog r ts mayAlias {} ts.ids := Program.ownership_eq hoff
  have houtcome : (prog.ownership r ts mayAlias).result.Ends (Ownership.Earned prog r ts)
      (Ownership.Contested prog r ts) :=
    heq ▸ Ownership.addThreads_outcome hs htargets hl Ownership.earned_empty
  have hexact : ∀ own, (prog.ownership r ts mayAlias).result = .ok own →
      ∀ o t, own.owner? o = some t ↔ t ∈ ts.ids ∧ Ownership.Comes prog r ts t o := by
    intro own hok o t
    refine ⟨(houtcome.of_eq hok).owner o t, ?_⟩
    rintro ⟨ht, first, hfirst, hpath⟩
    exact (Ownership.owns_code hs hok ht hfirst hpath).1
  have hrecorded : ∀ own, (prog.ownership r ts mayAlias).result = .ok own → own.Recorded prog :=
    fun own hok => Ownership.addThreads_records (heq ▸ hok) Ownership.recorded_empty
  refine ⟨⟨?_, fun hdisjoint => ?_⟩, fun e he => ?_, fun own hok => ⟨hexact own hok, ?_, ?_⟩⟩
  · rintro ⟨own, hok⟩ t ht u hu hne o ⟨hto, huo⟩
    have h₁ := (hexact own hok o t).mpr ⟨ht, hto⟩
    have h₂ := (hexact own hok o u).mpr ⟨hu, huo⟩
    exact hne (Option.some.inj (h₁.symm.trans h₂))
  · rcases Checked.ends_iff.mp houtcome with ⟨own, hok, -⟩ | ⟨e, -, hcontested⟩
    · exact ⟨own, hok⟩
    · cases hcontested with
      | mk ht hu hne hto huo => exact absurd ⟨hto, huo⟩ (hdisjoint _ ht _ hu hne _)
  · rw [he] at houtcome
    exact houtcome
  · intro f
    refine ⟨(hrecorded own hok).nodup f, fun q => ⟨(houtcome.of_eq hok).site f q, ?_⟩⟩
    rintro ⟨t, ht, c, ⟨first, hfirst, hpath⟩, hk, rfl⟩
    exact (Ownership.owns_code hs hok ht hfirst hpath).2 f (OpKind.callee?_eq_some.mpr hk)
  · intro t ht o
    rw [(hrecorded own hok).aliasSets t o, hexact own hok o t]
    simp [ht]

/-- The worker shares no operation with the thread that calls the helper twice, and its write is in its
own alias sets. -/
theorem helperTwice_threads_are_separate :
    ∃ cx, (Program.helperTwice.analyze locationAliasing).result = .ok cx ∧
      (∃ own, (Program.helperTwice.ownership cx.reach cx.threads locationAliasing).result = .ok own ∧
        ((own.aliasSets.get? 1).getD {}).contains 5 = true ∧
        Ownership.Comes Program.helperTwice cx.reach cx.threads 1 5) ∧
      ∀ o, ¬ (Ownership.Comes Program.helperTwice cx.reach cx.threads 0 o ∧
        Ownership.Comes Program.helperTwice cx.reach cx.threads 1 o) := by
  have hok := Checked.ok_of_toOption
    (x := (Program.helperTwice.analyze locationAliasing).result) (by decide +kernel)
  have ha := Program.analyze_ok hok
  obtain ⟨hiff, -, hexact⟩ := ownership_separates_threads Program.built_helperTwice rfl ha.targets
    (by decide +kernel) ha.threads locationAliasing
  refine ⟨_, hok, ⟨_, ha.ownership, ?_, ?_⟩, ?_⟩
  · decide +kernel
  · exact (((hexact _ ha.ownership).2.2 1 (by decide +kernel) 5).mp (by decide +kernel)).1
  · exact hiff.mp ⟨_, ha.ownership⟩ 0 (by decide +kernel) 1 (by decide +kernel) (by decide)

end YieldPlan
