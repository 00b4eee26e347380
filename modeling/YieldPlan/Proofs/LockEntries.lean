import YieldPlan.Proofs.AnalysisStages
import YieldPlan.Proofs.LockFlow
import YieldPlan.Proofs.OwnedCode

/-! The releases of a procedure have exactly what it and its callees unlock. As operations are
recorded, each call or thread creation narrows what the procedure that it enters is to start with,
and that stays free of repetitions. -/

namespace YieldPlan

variable {prog : Program}

def Release.Covers (r : Release) (l : Location) : Prop :=
  ∀ x, r.Spares x → l ≠ .unknown ∧ l ≠ x

theorem Release.spares_merge {r s : Release} {x : Location} :
    (r.merge s).Spares x ↔ r.Spares x ∧ s.Spares x := by
  simp only [Spares, merge, Bool.or_eq_false_iff, List.mem_append, not_or]
  tauto

/-- The procedure, or one that it calls, however deep, unlocks a lock, or one that is not known. -/
def Program.Unlocks (prog : Program) (p : ProcId) (x : Location) : Prop :=
  ∃ u < prog.ops.size, Relation.ReflTransGen prog.DirectCall p (prog.procOf u) ∧
    ∃ l, (prog.kind u).released? = some l ∧ (l = .unknown ∨ l = x)

namespace LockSets

def LeavesAlone (prog : Program) (known : Table ProcId Release) (o : OpId) (x : Location) : Prop :=
  (∀ l, (prog.kind o).released? = some l → l ≠ .unknown ∧ l ≠ x) ∧
    ∀ q s, (prog.kind o).callee? = some q → known.get? q = some s → s.Spares x

theorem spares_releaseStep {known : Table ProcId Release} {r : Release} {o : OpId} {x : Location} :
    (releaseStep prog known r o).Spares x ↔ r.Spares x ∧ LeavesAlone prog known o x := by
  have hcallee : (∀ q s, (prog.kind o).callee? = some q → known.get? q = some s → s.Spares x) ↔
      ∀ s, (prog.kind o).callee?.bind known.get? = some s → s.Spares x := by
    constructor
    · intro h s hs
      obtain ⟨q, hq, hs⟩ := Option.bind_eq_some_iff.mp hs
      exact h q s hq hs
    · intro h q s hq hs
      exact h s (Option.bind_eq_some_iff.mpr ⟨q, hq, hs⟩)
  unfold releaseStep LeavesAlone
  rw [hcallee]
  cases (prog.kind o).released? <;> cases (prog.kind o).callee?.bind known.get? <;>
    simp [Release.spares_add, Release.spares_merge, and_assoc]

theorem spares_foldl {known : Table ProcId Release} {ops : List OpId} {r : Release} {x : Location} :
    (ops.foldl (releaseStep prog known) r).Spares x ↔
      r.Spares x ∧ ∀ o ∈ ops, LeavesAlone prog known o x := by
  induction ops generalizing r with
  | nil => simp
  | cons o ops ih => rw [List.foldl_cons, ih, spares_releaseStep, List.forall_mem_cons, and_assoc]

/-- The releases of a procedure spare what neither it nor anything that it calls unlocks. -/
def ReleasesExactly (prog : Program) (release : Table ProcId Release) (p : ProcId) : Prop :=
  ∃ r, release.get? p = some r ∧ ∀ x, r.Spares x ↔ ¬ prog.Unlocks p x

theorem releases_exact (hs : prog.Shaped) {order : List ProcId}
    (hcallees : ∀ before p after, order = before ++ p :: after →
      ∀ q, prog.Calls p q → q ∈ before) :
    ∀ p ∈ order, ReleasesExactly prog (releases prog order) p := by
  refine CallGraph.foldl_callees_first (Q := ReleasesExactly prog) hcallees ?_ ?_ {}
  · intro known p hknown
    refine ⟨_, by rw [Table.get?_put, if_pos rfl], fun x => ?_⟩
    rw [spares_foldl, and_iff_right (Release.spares_empty x)]
    constructor
    · rintro hleaves ⟨u, hu, hpath, l, hl, hlost⟩
      rcases Relation.ReflTransGen.cases_head hpath with heq | ⟨f, hcall, hrest⟩
      · have hmem := (Reachability.mem_procOps hs).mpr ⟨hu, heq.symm⟩
        obtain ⟨hknown, hother⟩ := (hleaves u hmem).1 l hl
        exact hlost.elim hknown hother
      · obtain ⟨r, hr, hexact⟩ := hknown f hcall.calls
        obtain ⟨o, ho, hop, hcallee⟩ := hcall
        have hspares := (hleaves o ((Reachability.mem_procOps hs).mpr ⟨ho, hop⟩)).2 f r hcallee hr
        exact (hexact x).mp hspares ⟨u, hu, hrest, l, hl, hlost⟩
    · intro hnone o ho
      obtain ⟨holt, hop⟩ := (Reachability.mem_procOps hs).mp ho
      constructor
      · intro l hl
        refine not_or.mp fun hlost => hnone ⟨o, holt, hop ▸ .refl, l, hl, hlost⟩
      · intro f r hcallee hr
        have hcall : prog.DirectCall p f := ⟨o, holt, hop, hcallee⟩
        obtain ⟨r', hr', hexact⟩ := hknown f hcall.calls
        obtain rfl := Option.some.inj (hr.symm.trans hr')
        refine (hexact x).mpr ?_
        rintro ⟨u, hu, hpath, hunlock⟩
        exact hnone ⟨u, hu, hpath.head hcall, hunlock⟩
  · rintro known p q hqp ⟨r, hr, hexact⟩
    exact ⟨r, by rw [Table.get?_put, if_neg hqp, hr], hexact⟩

/-- The releases of a procedure cover every unlock in it and in all that it calls. -/
def Summarized (prog : Program) (release : Table ProcId Release) (p : ProcId) : Prop :=
  ∃ r, release.get? p = some r ∧ ∀ u < prog.ops.size,
    Relation.ReflTransGen prog.DirectCall p (prog.procOf u) →
    ∀ l, (prog.kind u).released? = some l → r.Covers l

theorem ReleasesExactly.summarized {release : Table ProcId Release} {p : ProcId}
    (h : ReleasesExactly prog release p) : Summarized prog release p := by
  obtain ⟨r, hr, hexact⟩ := h
  refine ⟨r, hr, fun u hu hpath l hl x hx => not_or.mp fun hlost => ?_⟩
  exact (hexact x).mp hx ⟨u, hu, hpath, l, hl, hlost⟩

variable {release : Table ProcId Release}

def Progress.Clean (g : Progress) : Prop :=
  ∀ q t, g.entries.get? q = some t → t.Nodup

theorem Progress.enter_entries (g : Progress) (k : OpKind) (s : LockSet) (q : ProcId) :
    (g.enter k s).entries.get? q =
      if k.spawn? = some q then some []
      else if k = .call q then some (((g.entries.get? q).map (·.meet s)).getD s)
      else g.entries.get? q := by
  unfold enter
  split
  · next p =>
    rw [Table.get?_put]
    by_cases hq : q = p
    · subst hq
      cases g.entries.get? q <;> simp [OpKind.spawn?]
    · simp [OpKind.spawn?, hq, Ne.symm hq]
  · next p =>
    rw [Table.get?_put]
    by_cases hq : q = p
    · simp [OpKind.spawn?, hq]
    · simp [OpKind.spawn?, hq, Ne.symm hq]
  · next hcall hspawn =>
    have hk : k.spawn? ≠ some q := by
      intro h
      unfold OpKind.spawn? at h
      split at h
      · cases h
        exact hspawn q rfl
      · cases h
    rw [if_neg hk, if_neg (hcall q)]

theorem Progress.enter_held (g : Progress) (k : OpKind) (s : LockSet) :
    (g.enter k s).held = g.held := by
  unfold enter
  split <;> rfl

theorem Progress.Clean.enter {g : Progress} (h : g.Clean) (k : OpKind) {s : LockSet}
    (hs : s.Nodup) : (g.enter k s).Clean := by
  intro q t ht
  rw [enter_entries] at ht
  split at ht
  · cases ht
    exact List.nodup_nil
  · split at ht
    · cases ht
      cases hg : g.entries.get? q with
      | none => exact hs
      | some u => exact (h q u hg).filter _
    · exact h q t ht

theorem Progress.Clean.addOps {ops : List OpId} {g : Progress} (h : g.Clean) {s : LockSet}
    (hs : s.Nodup) : (g.addOps prog release s ops).Clean := by
  induction ops generalizing g s with
  | nil => exact h
  | cons o ops ih =>
    rw [Progress.addOps]
    have hnext : Clean { (g.enter (prog.kind o) s) with
        held := (g.enter (prog.kind o) s).held.put o s } := h.enter (prog.kind o) hs
    exact ih hnext (OpKind.nodup_lockStep hs)

theorem Progress.Clean.foldl {l : List (BlockId × LockSet)} (hl : ∀ e ∈ l, e.2.Nodup)
    {g : Progress} (h : g.Clean) :
    (l.foldl (fun g e => g.addOps prog release e.2 (prog.block e.1).ops) g).Clean := by
  induction l generalizing g with
  | nil => exact h
  | cons e l ih =>
    obtain ⟨he, hl⟩ := List.forall_mem_cons.mp hl
    exact ih hl (h.addOps he)

end LockSets

end YieldPlan
