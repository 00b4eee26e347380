import YieldPlan.Proofs.AnalysisStages

/-! A procedure is a thread if it is the entrypoint or some creation that can run starts it. The
marks for procedures that run more than once are made callers first, so each mark sees the final
marks of all callers. -/

namespace YieldPlan

variable {prog : Program} {r : Reachability} {main : ProcId}

theorem Program.mem_live
    (ht : ∀ o < prog.ops.size, ∀ f, (prog.kind o).callEdge? = some f → f < prog.procs.size)
    {root p : ProcId} (hroot : root < prog.procs.size) :
    p ∈ prog.calls.reachableFrom root ↔ Relation.ReflTransGen prog.Calls root p := by
  have hclosed := CallGraph.targets_closed ht
  have hmem := Graph.mem_reachableFrom hclosed (v := root) (u := p) (List.mem_range.mpr hroot)
  rw [List.length_range] at hmem
  have hsize : prog.calls.size = prog.procs.size := rfl
  rw [CallGraph.reachableFrom, List.mem_filter, List.contains_iff_mem, hsize, hmem]
  constructor
  · rintro ⟨-, hr⟩
    exact Relation.ReflTransGen.mono (fun _ _ => mem_targets.mp) _ _ hr
  · intro hr
    have hr : Graph.Reaches prog.calls.targets root p :=
      Relation.ReflTransGen.mono (fun _ _ => mem_targets.mpr) _ _ hr
    exact ⟨hr.closed hclosed (List.mem_range.mpr hroot), hr⟩

theorem Program.main_ok (h : prog.main = .ok main) : main < prog.procs.size := by
  unfold Program.main at h
  split at h
  · next p hp =>
    cases h
    exact (Array.findIdx?_eq_some_iff_getElem.mp hp).1
  · cases h

namespace Threads

theorem mem_addSpawn {sites : List (ProcId × List OpId)} {target q : ProcId} {o : OpId} :
    q ∈ (addSpawn sites target o).map (·.1) ↔ q = target ∨ q ∈ sites.map (·.1) := by
  unfold addSpawn
  split
  · next hany =>
    obtain ⟨s, hs, hst⟩ := List.any_eq_true.mp hany
    have hst : s.1 = target := of_decide_eq_true hst
    rw [List.map_map]
    have hfst : ((fun s : ProcId × List OpId => s.1) ∘ fun s =>
        if s.1 = target then (s.1, s.2 ++ [o]) else s) = fun s => s.1 := by
      funext x
      simp only [Function.comp_apply]
      split <;> rfl
    rw [hfst]
    constructor
    · exact .inr
    · rintro (rfl | hq)
      · exact List.mem_map.mpr ⟨s, hs, hst⟩
      · exact hq
  · rw [List.map_append, List.mem_append, or_comm]
    simp

theorem mem_keys_foldl {α : Type} {f : List (ProcId × List OpId) → α → List (ProcId × List OpId)}
    {q : ProcId} (adds : α → Prop)
    (hf : ∀ sites x, q ∈ (f sites x).map (·.1) ↔ q ∈ sites.map (·.1) ∨ adds x) (xs : List α)
    (sites : List (ProcId × List OpId)) :
    q ∈ (xs.foldl f sites).map (·.1) ↔ q ∈ sites.map (·.1) ∨ ∃ x ∈ xs, adds x := by
  induction xs generalizing sites with
  | nil => simp
  | cons x xs ih =>
    rw [List.foldl_cons, ih, hf, or_assoc]
    simp

theorem mem_spawnSites {live : List ProcId} {q : ProcId} :
    q ∈ (spawnSites prog live main).map (·.1) ↔
      q = main ∨ ∃ o < prog.ops.size, (prog.kind o).spawn? = some q ∧ prog.procOf o ∈ live := by
  rw [spawnSites, mem_keys_foldl fun o => (prog.kind o).spawn? = some q ∧ prog.procOf o ∈ live]
  · simp [Program.opIds]
  intro sites o
  split
  · next target hspawn =>
    split
    · next hlive =>
      rw [mem_addSpawn, or_comm, hspawn, Option.some.injEq, @eq_comm _ target]
      simp [List.contains_iff_mem.mp hlive]
    · next hlive =>
      rw [List.contains_iff_mem] at hlive
      simp [hlive]
  · next hspawn => simp [hspawn]

structure Repetition.Grows (a b : Repetition) : Prop where
  repeated : ∀ q ∈ a.repeated, q ∈ b.repeated
  multi : ∀ q ∈ a.multi, q ∈ b.multi

theorem Repetition.Grows.refl (a : Repetition) : a.Grows a := ⟨fun _ h => h, fun _ h => h⟩

theorem Repetition.Grows.trans {a b c : Repetition} (h : a.Grows b) (k : b.Grows c) : a.Grows c :=
  ⟨fun q hq => k.repeated q (h.repeated q hq), fun q hq => k.multi q (h.multi q hq)⟩

theorem Repetition.add_grows {sites : List OpId} {rep : Repetition} {p : ProcId} :
    rep.Grows (rep.add prog r sites p) := by
  constructor
  all_goals
    intro q hq
    simp only [add]
    split
    · exact List.mem_cons_of_mem _ hq
    · exact hq

theorem Repetition.mem_repeated_add {sites : List OpId} {rep : Repetition} {p q : ProcId}
    (h : q ∈ (rep.add prog r sites p).repeated) : q = p ∨ q ∈ rep.repeated := by
  simp only [add] at h
  split at h
  · exact List.mem_cons.mp h
  · exact .inr h

/-- The sites start several instances: one creation follows another or itself, or lies in a procedure
that runs more than once. -/
def Several (prog : Program) (r : Reachability) (sites : List OpId) (repeated : List ProcId) :
    Prop :=
  (∃ s ∈ sites, ∃ t ∈ sites, (prog.kind s).spawn?.isSome ∧ (prog.kind t).spawn?.isSome ∧
    r.reach prog s t = true) ∨
  ∃ s ∈ sites, (prog.kind s).spawn?.isSome ∧ prog.procOf s ∈ repeated

/-- The calls among the sites run more than once: there are two, or one is in a loop or in a procedure
that runs more than once. -/
def Again (prog : Program) (r : Reachability) (sites : List OpId) (repeated : List ProcId) : Prop :=
  (∃ c ∈ sites, ∃ d ∈ sites, (prog.kind c).spawn? = none ∧ (prog.kind d).spawn? = none ∧ c ≠ d) ∨
  ∃ c ∈ sites, (prog.kind c).spawn? = none ∧
    (r.reach prog c c = true ∨ prog.procOf c ∈ repeated)

theorem Repetition.add_multi {sites : List OpId} {rep : Repetition} {p : ProcId}
    (h : Several prog r sites rep.repeated) :
    p ∈ (rep.add prog r sites p).multi ∧ p ∈ (rep.add prog r sites p).repeated := by
  have hm : (((sites.filter fun o => (prog.kind o).spawn?.isSome).any fun s =>
      (sites.filter fun o => (prog.kind o).spawn?.isSome).any fun t => r.reach prog s t) ||
      (sites.filter fun o => (prog.kind o).spawn?.isSome).any fun o =>
        rep.repeated.contains (prog.procOf o)) = true := by
    rw [Bool.or_eq_true]
    rcases h with ⟨s, hs, t, ht, hks, hkt, hst⟩ | ⟨s, hs, hks, hq⟩
    · left
      refine List.any_eq_true.mpr ⟨s, List.mem_filter.mpr ⟨hs, hks⟩, ?_⟩
      exact List.any_eq_true.mpr ⟨t, List.mem_filter.mpr ⟨ht, hkt⟩, hst⟩
    · right
      refine List.any_eq_true.mpr ⟨s, List.mem_filter.mpr ⟨hs, hks⟩, ?_⟩
      exact List.contains_iff_mem.mpr hq
  simp only [add, hm, Bool.true_or, if_true, List.mem_cons_self, and_self]

theorem Repetition.add_repeated {sites : List OpId} {rep : Repetition} {p : ProcId}
    (h : Again prog r sites rep.repeated) : p ∈ (rep.add prog r sites p).repeated := by
  have hcall : ∀ c ∈ sites, (prog.kind c).spawn? = none →
      c ∈ sites.filter fun o => !(prog.kind o).spawn?.isSome := by
    intro c hc hk
    exact List.mem_filter.mpr ⟨hc, by rw [hk]; rfl⟩
  have hr : (decide ((sites.filter fun o => !(prog.kind o).spawn?.isSome).length > 1) ||
      ((sites.filter fun o => !(prog.kind o).spawn?.isSome).any fun c => r.reach prog c c) ||
      (sites.filter fun o => !(prog.kind o).spawn?.isSome).any fun o =>
        rep.repeated.contains (prog.procOf o)) = true := by
    rw [Bool.or_eq_true, Bool.or_eq_true]
    rcases h with ⟨c, hc, d, hd, hkc, hkd, hne⟩ | ⟨c, hc, hk, hloop | hq⟩
    · left
      left
      have hsub : [c, d] ⊆ sites.filter fun o => !(prog.kind o).spawn?.isSome :=
        List.cons_subset.mpr ⟨hcall c hc hkc, List.cons_subset.mpr
          ⟨hcall d hd hkd, List.nil_subset _⟩⟩
      have hnd : [c, d].Nodup := by simpa using hne
      exact decide_eq_true (List.Nodup.subperm hnd hsub).length_le
    · left
      right
      exact List.any_eq_true.mpr ⟨c, hcall c hc hk, hloop⟩
    · right
      exact List.any_eq_true.mpr ⟨c, hcall c hc hk, List.contains_iff_mem.mpr hq⟩
  simp only [add]
  rw [Bool.or_assoc, Bool.or_assoc, ← Bool.or_assoc (decide _), hr, Bool.or_true]
  exact List.mem_cons_self

theorem foldl_grows {f : Repetition → ProcId → Repetition} {rep : Repetition}
    (hf : ∀ (rep : Repetition) p, rep.Grows (f rep p)) (ps : List ProcId) :
    rep.Grows (ps.foldl f rep) := by
  induction ps generalizing rep with
  | nil => exact .refl rep
  | cons p ps ih => exact (hf rep p).trans ih

theorem mem_repeated_foldl {f : Repetition → ProcId → Repetition} {rep : Repetition} {q : ProcId}
    (hf : ∀ rep p, q ∈ (f rep p).repeated → q = p ∨ q ∈ rep.repeated) {ps : List ProcId}
    (h : q ∈ (ps.foldl f rep).repeated) : q ∈ ps ∨ q ∈ rep.repeated := by
  induction ps generalizing rep with
  | nil => exact .inr h
  | cons p ps ih =>
    rcases ih h with hq | hq
    · exact .inl (List.mem_cons_of_mem _ hq)
    · rcases hf rep p hq with rfl | hq
      · exact .inl List.mem_cons_self
      · exact .inr hq

/-- The sites of a procedure that can run. -/
def liveSites (prog : Program) (live : List ProcId) (p : ProcId) : List OpId :=
  (prog.calls.sites p).filter fun o => live.contains (prog.procOf o)

/-- A procedure whose callers all come after it in the order has its marks in the end. -/
theorem repetition_marks (prog : Program) (r : Reachability) (main : ProcId) (live : List ProcId)
    {before after : List ProcId} {p : ProcId} (hp : p ≠ main)
    (hnd : (before ++ p :: after).Nodup)
    (hcallers : ∀ o ∈ liveSites prog live p, prog.procOf o ∈ after) :
    let final := repetition prog prog.calls (before ++ p :: after) r live main
    (Several prog r (liveSites prog live p) final.repeated →
      p ∈ final.multi ∧ p ∈ final.repeated) ∧
    (Again prog r (liveSites prog live p) final.repeated → p ∈ final.repeated) := by
  intro final
  let f : Repetition → ProcId → Repetition := fun rep p =>
    if p = main then rep else rep.add prog r (liveSites prog live p) p
  have hgrows : ∀ (rep : Repetition) p, rep.Grows (f rep p) := by
    intro rep p
    simp only [f]
    split
    · exact .refl rep
    · exact Repetition.add_grows
  have hadds : ∀ q rep p, q ∈ (f rep p).repeated → q = p ∨ q ∈ rep.repeated := by
    intro q rep p hq
    simp only [f] at hq
    split at hq
    · exact .inr hq
    · exact Repetition.mem_repeated_add hq
  let rep := after.reverse.foldl f {}
  have hfinal : final = before.reverse.foldl f (f rep p) := by
    show (before ++ p :: after).reverse.foldl f {} = _
    rw [List.reverse_append, List.reverse_cons, List.foldl_append, List.foldl_append]
    rfl
  have hstep : f rep p = rep.add prog r (liveSites prog live p) p := if_neg hp
  have hlater : (rep.add prog r (liveSites prog live p) p).Grows final := by
    rw [hfinal, ← hstep]
    exact foldl_grows hgrows _
  -- A caller has its turn before `p`, and only its own turn marks it.
  have hknown : ∀ o ∈ liveSites prog live p, prog.procOf o ∈ final.repeated →
      prog.procOf o ∈ rep.repeated := by
    intro o ho hq
    have hafter := hcallers o ho
    obtain ⟨-, hnd', hdisj⟩ := List.nodup_append.mp hnd
    rw [hfinal] at hq
    rcases mem_repeated_foldl (hadds _) hq with hq | hq
    · exact absurd rfl (hdisj _ (List.mem_reverse.mp hq) _ (List.mem_cons_of_mem _ hafter))
    · rcases hadds _ _ _ hq with hq | hq
      · exact absurd (hq ▸ hafter) (List.nodup_cons.mp hnd').1
      · exact hq
  constructor
  · intro h
    have hrep : Several prog r (liveSites prog live p) rep.repeated := by
      rcases h with h | ⟨s, hs, hk, hq⟩
      · exact .inl h
      · exact .inr ⟨s, hs, hk, hknown s hs hq⟩
    obtain ⟨hm, hr⟩ := Repetition.add_multi hrep
    exact ⟨hlater.multi _ hm, hlater.repeated _ hr⟩
  · intro h
    have hrep : Again prog r (liveSites prog live p) rep.repeated := by
      rcases h with h | ⟨c, hc, hk, hloop | hq⟩
      · exact .inl h
      · exact .inr ⟨c, hc, hk, .inl hloop⟩
      · exact .inr ⟨c, hc, hk, .inr (hknown c hc hq)⟩
    exact hlater.repeated _ (Repetition.add_repeated hrep)

end Threads

theorem Program.threads_ok {g : CallGraph} {order : List ProcId} {ts : Threads}
    (h : (prog.threads g order r).result = .ok ts) : ∃ main, prog.main = .ok main ∧
      ts.list = (Threads.spawnSites prog (g.reachableFrom main) main).map fun s =>
        { proc := s.1, name := prog.procName s.1, spawns := s.2,
          multiInstance :=
            (Threads.repetition prog g order r (g.reachableFrom main) main).multi.contains s.1 } := by
  simp only [Program.threads, Traced.result_bind, Traced.result_ofChecked, Traced.result_emit] at h
  obtain ⟨main, hmain, h⟩ := Checked.bind_ok.mp h
  obtain ⟨⟨⟩, -, h⟩ := Checked.bind_ok.mp h
  cases h
  exact ⟨main, hmain, rfl⟩

theorem Threads.exists_id {ts : Threads} {t : Thread} (h : t ∈ ts.list) :
    ∃ i ∈ ts.ids, ts.get i = t := by
  obtain ⟨i, hi⟩ := List.getElem?_of_mem h
  refine ⟨i, List.mem_range.mpr (List.getElem?_eq_some_iff.mp hi).1, ?_⟩
  rw [get, List.getD_eq_getElem?_getD, hi]
  rfl

namespace Analyzed

variable {mayAlias : AliasOracle} {cx : Analysis} {root : ProcId}
  (h : Analyzed prog mayAlias cx) (hroot : prog.main = .ok root)

include h hroot

theorem exists_thread {q : ProcId} : (∃ t ∈ cx.threads.list, t.proc = q) ↔ q = root ∨
    ∃ o < prog.ops.size, (prog.kind o).spawn? = some q ∧
      Relation.ReflTransGen prog.Calls root (prog.procOf o) := by
  obtain ⟨main, hmain, hlist⟩ := Program.threads_ok h.threads
  obtain rfl := Except.ok.inj (hmain.symm.trans hroot)
  have hmem : q ∈ (Threads.spawnSites prog (prog.calls.reachableFrom main) main).map (·.1) ↔ _ :=
    Threads.mem_spawnSites
  simp only [Program.mem_live h.targets (Program.main_ok hmain)] at hmem
  rw [← hmem, hlist]
  simp

theorem multiInstance_of_mem {t : Thread} (ht : t ∈ cx.threads.list)
    (hm : t.proc ∈ (Threads.repetition prog prog.calls cx.order cx.reach
      (prog.calls.reachableFrom root) root).multi) : t.multiInstance = true := by
  obtain ⟨main, hmain, hlist⟩ := Program.threads_ok h.threads
  obtain rfl := Except.ok.inj (hmain.symm.trans hroot)
  rw [hlist] at ht
  obtain ⟨s, -, rfl⟩ := List.mem_map.mp ht
  exact List.contains_iff_mem.mpr hm

theorem mem_liveSites {p : ProcId} {o : OpId} :
    o ∈ Threads.liveSites prog (prog.calls.reachableFrom root) p ↔
      o < prog.ops.size ∧ (prog.kind o).callEdge? = some p ∧
        Relation.ReflTransGen prog.Calls root (prog.procOf o) := by
  rw [Threads.liveSites, List.mem_filter, List.contains_iff_mem,
    Program.mem_live h.targets (Program.main_ok hroot)]
  simp only [CallGraph.sites, List.mem_map, List.mem_filter, Program.mem_edges, decide_eq_true_eq]
  constructor
  · rintro ⟨⟨e, ⟨⟨x, hx, -, hf, hsite⟩, rfl⟩, rfl⟩, hlive⟩
    rw [hsite] at hlive ⊢
    exact ⟨hx, hf, hlive⟩
  · rintro ⟨ho, hf, hlive⟩
    exact ⟨⟨⟨prog.procOf o, p, o⟩, ⟨⟨o, ho, rfl, hf, rfl⟩, rfl⟩, rfl⟩, hlive⟩

theorem marks (hc : prog.Coherent) {p : ProcId} (hp : p ≠ root) (hlt : p < prog.procs.size) :
    let final := Threads.repetition prog prog.calls cx.order cx.reach
      (prog.calls.reachableFrom root) root
    let sites := Threads.liveSites prog (prog.calls.reachableFrom root) p
    (Threads.Several prog cx.reach sites final.repeated → p ∈ final.multi ∧ p ∈ final.repeated) ∧
    (Threads.Again prog cx.reach sites final.repeated → p ∈ final.repeated) := by
  obtain ⟨hnd, hmem, -⟩ := h.order_spec hc
  obtain ⟨before, after, hsplit⟩ := List.append_of_mem ((hmem p).mpr hlt)
  have hmarks := Threads.repetition_marks prog cx.reach root (prog.calls.reachableFrom root) hp
    (hsplit ▸ hnd) fun o ho => by
      obtain ⟨holt, hf, -⟩ := (h.mem_liveSites hroot).mp ho
      exact h.callers_after hc hsplit ⟨o, holt, rfl, hf⟩
  rw [← hsplit] at hmarks
  exact hmarks

end Analyzed

end YieldPlan
