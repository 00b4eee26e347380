import YieldPlan.Proofs.AnalysisStages
import YieldPlan.Proofs.PhaseSteps
import YieldPlan.Proofs.RegionPaths

/-! The summary of a procedure joins the movers of all operations in it and in what it calls,
however deep: procedures are summarized callees first. The kind of a region joins what is written
inside it with the summaries of what is called there. -/

namespace YieldPlan

namespace Mover

theorem both_le (k : Mover) : Mover.both ≤ k := both_join k

theorem join_le_iff {a b k : Mover} : a.join b ≤ k ↔ a ≤ k ∧ b ≤ k := by
  cases a <;> cases b <;> cases k <;> decide

theorem foldl_join_le_iff {ms : List Mover} {a k : Mover} :
    ms.foldl join a ≤ k ↔ a ≤ k ∧ ∀ m ∈ ms, m ≤ k := by
  induction ms generalizing a with
  | nil => simp
  | cons m ms ih => rw [List.foldl_cons, ih, join_le_iff, List.forall_mem_cons, and_assoc]

theorem joinAll_le_iff {ms : List Mover} {k : Mover} : joinAll ms ≤ k ↔ ∀ m ∈ ms, m ≤ k := by
  rw [joinAll, foldl_join_le_iff]
  exact and_iff_right (both_le k)

end Mover

namespace Movability

variable {prog : Program} {m : Movability} {p q : ProcId}

theorem effect_le_iff {o : OpId} {k : Mover} : m.effect prog o ≤ k ↔
    m.movable prog o ≤ k ∧ ∀ f, (prog.kind o).callee? = some f → m.summary f ≤ k := by
  unfold effect
  cases (prog.kind o).callee? with
  | none => simp
  | some f => simp [Mover.join_le_iff]

theorem summary_addProc : (m.addProc prog p).summary q =
    if q = p then Mover.joinAll ((prog.procOps p).map (m.effect prog)) else m.summary q := by
  rw [summary, addProc, Table.get?_put]
  split <;> rfl

/-- The summary of a procedure joins the movers of all operations in it and in all that it calls. -/
def Joins (prog : Program) (m : Movability) (p : ProcId) : Prop :=
  ∀ k, m.summary p ≤ k ↔ ∀ o < prog.ops.size,
    Relation.ReflTransGen prog.DirectCall p (prog.procOf o) → m.movable prog o ≤ k

theorem addProc_joins (hs : prog.Shaped) (hcallees : ∀ f, prog.Calls p f → Joins prog m f) :
    Joins prog (m.addProc prog p) p := by
  intro k
  rw [summary_addProc, if_pos rfl, Mover.joinAll_le_iff, List.forall_mem_map]
  constructor
  · intro h o ho hpath
    show m.movable prog o ≤ k
    rcases Relation.ReflTransGen.cases_head hpath with heq | ⟨f, hcall, hrest⟩
    · exact (effect_le_iff.mp (h o ((Reachability.mem_procOps hs).mpr ⟨ho, heq.symm⟩))).1
    · have hjoins := hcallees f hcall.calls
      obtain ⟨c, hc, hcp, hcallee⟩ := hcall
      have heffect := h c ((Reachability.mem_procOps hs).mpr ⟨hc, hcp⟩)
      exact (hjoins k).mp ((effect_le_iff.mp heffect).2 f hcallee) o ho hrest
  · intro h o ho
    obtain ⟨hlt, hop⟩ := (Reachability.mem_procOps hs).mp ho
    refine effect_le_iff.mpr ⟨h o hlt (hop ▸ .refl), fun f hf => ?_⟩
    have hcall : prog.DirectCall p f := ⟨o, hlt, hop, hf⟩
    exact (hcallees f hcall.calls k).mpr fun u hu hpath => h u hu (hpath.head hcall)

theorem Joins.addProc (h : Joins prog m q) (hq : q ≠ p) : Joins prog (m.addProc prog p) q := by
  intro k
  rw [summary_addProc, if_neg hq]
  exact h k

end Movability

theorem Program.movability_ok {prog : Program} {order : List ProcId} {ts : Threads} {c : Conflicts}
    {m : Movability} (h : (prog.movability order ts c).result = .ok m) :
    m = order.foldl (Movability.addProc prog)
      { sequential := ts.isSequential, conflicts := c } := by
  simp only [movability, Traced.result_bind] at h
  obtain ⟨_, -, h⟩ := Checked.bind_ok.mp h
  cases h
  rfl

theorem Program.movability_context {prog : Program} {order : List ProcId} {ts : Threads}
    {c : Conflicts} {m : Movability} (h : (prog.movability order ts c).result = .ok m) :
    m.sequential = ts.isSequential ∧ m.conflicts = c := by
  rw [movability_ok h]
  apply List.foldlRecOn order (motive := fun m : Movability =>
    m.sequential = ts.isSequential ∧ m.conflicts = c)
  · exact ⟨rfl, rfl⟩
  · intro m hm p _
    exact hm

theorem Program.movability_joins {prog : Program} (hs : prog.Shaped) {order : List ProcId}
    (hcallees : ∀ before p after, order = before ++ p :: after →
      ∀ q, prog.Calls p q → q ∈ before) {ts : Threads} {c : Conflicts} {m : Movability}
    (h : (prog.movability order ts c).result = .ok m) {p : ProcId} (hp : p ∈ order) :
    Movability.Joins prog m p := by
  rw [movability_ok h]
  exact CallGraph.foldl_callees_first hcallees (fun _ _ => Movability.addProc_joins hs)
    (fun _ _ _ hq hjoins => hjoins.addProc hq) _ p hp

theorem Analyzed.joins {prog : Program} {mayAlias : AliasOracle} {cx : Analysis}
    (h : Analyzed prog mayAlias cx) (hc : prog.Coherent) {p : ProcId} (hp : p < prog.procs.size) :
    Movability.Joins prog cx.movability p := by
  obtain ⟨-, hmem, hcallees⟩ := h.order_spec hc
  exact Program.movability_joins (h.shaped hc) hcallees h.movability ((hmem p).mpr hp)

/-- The operation is written inside the region, or in a procedure that the region calls, however
deep. -/
def Program.Within (prog : Program) (start o : OpId) : Prop :=
  (∃ d, prog.Inside (fun _ => True) start o d) ∨
    ∃ c d f, prog.Inside (fun _ => True) start c d ∧ (prog.kind c).callee? = some f ∧
      o < prog.ops.size ∧ Relation.ReflTransGen prog.DirectCall f (prog.procOf o)

namespace AtomicRegion

variable {prog : Program} {m : Movability} {start : OpId} {region : AtomicRegion}

theorem scan_kind (h : scan prog m start = .ok region) :
    region.kind = Mover.joinAll (region.ops.map (m.effect prog)) := by
  rw [(scan_parts h).2.1]
  rfl

theorem kind_le_iff (hs : prog.Shaped) (ho : start < prog.ops.size)
    (hjoins : ∀ c f, (prog.kind c).callee? = some f → Movability.Joins prog m f)
    (h : scan prog m start = .ok region) (k : Mover) :
    region.kind ≤ k ↔ ∀ o, prog.Within start o → m.movable prog o ≤ k := by
  rw [scan_kind h, Mover.joinAll_le_iff, List.forall_mem_map]
  constructor
  · rintro hops o (⟨d, hin⟩ | ⟨c, d, f, hin, hcallee, hlt, hpath⟩)
    · by_cases hmarker : prog.kind o = .library .atomicEnd ∨ prog.kind o = .library .atomicBegin
      · rw [PhaseTracker.movable_of_marker (.inr hmarker)]
        exact Mover.both_le k
      · obtain ⟨hend, hbegin⟩ := not_or.mp hmarker
        exact (Movability.effect_le_iff.mp (hops o (scan_inside hs ho h hin hbegin hend))).1
    · have hcall : c ∈ region.ops := by
        apply scan_inside hs ho h hin
        · intro hk
          simp [hk, OpKind.callee?] at hcallee
        · intro hk
          simp [hk, OpKind.callee?] at hcallee
      have hsummary := (Movability.effect_le_iff.mp (hops c hcall)).2 f hcallee
      exact (hjoins c f hcallee k).mp hsummary o hlt hpath
  · intro hwithin o hmem
    obtain ⟨d, hin⟩ := (scan_sound hs ho h).1 o hmem
    refine Movability.effect_le_iff.mpr ⟨hwithin o (.inl ⟨d, hin⟩), fun f hf => ?_⟩
    exact (hjoins o f hf k).mpr fun u hu hpath => hwithin u (.inr ⟨o, d, f, hin, hf, hu, hpath⟩)

end AtomicRegion

end YieldPlan
