import YieldPlan.Proofs.FiledRequests
import YieldPlan.Proofs.WalkInvariants

/-! A thread has at most one request for each operation, and the first is for its first operation.
In dynamic mode none of them yields always, and one that breaks a loop stands at the first operation
or at a point that was entered both before and past the commit point. -/

namespace YieldPlan

theorem transition_dynamic {checks : Bool} {m : Mover} {a : Area} {kind : BlockKind}
    {placement : Placement} (h : (transition .dynamic checks m a).2 = some (kind, placement)) :
    kind ≠ .static ∧ kind ≠ .loopBreak := by
  cases m <;> cases a <;> cases checks <;> simp_all [transition, Area.mayBePost] <;>
    (obtain ⟨rfl, -⟩ := h; decide)

namespace BlockStarts

variable {s : BlockStarts} {t : ThreadId} {o : OpId} {kind : BlockKind} {placement : Placement}
  {sources : List OpId}

theorem map_file {β : Type} (f : BlockStart → β)
    (hkeep : ∀ r ∈ s.ofThread t, r.op = o → f (s.after t o kind placement sources) = f r) :
    ((s.file t o kind placement sources).1.ofThread t).map f =
      if o ∈ (s.ofThread t).map (·.op) then (s.ofThread t).map f
      else (s.ofThread t).map f ++ [f ⟨o, kind, (s.ofThread t).length, placement, sources⟩] := by
  unfold file
  cases hold : s.get? t o with
  | some old =>
    have hmem : o ∈ (s.ofThread t).map (·.op) :=
      List.mem_map.mpr ⟨old, List.mem_of_find?_eq_some hold, op_of_get? hold⟩
    have hafter : s.after t o kind placement sources = (merge old kind placement sources).1 := by
      simp [after, hold]
    rw [if_pos hmem]
    simp only [ofThread_put, ↓reduceIte, List.map_map]
    apply List.map_congr_left
    intro r hr
    by_cases hop : r.op = o
    · rw [Function.comp_apply, if_pos hop, ← hafter]
      exact hkeep r hr hop
    · simp [hop]
  | none =>
    have hmem : o ∉ (s.ofThread t).map (·.op) := by
      intro h
      obtain ⟨r, hr, hop⟩ := List.mem_map.mp h
      have := List.find?_eq_none.mp hold r hr
      simp [hop] at this
    rw [if_neg hmem]
    simp [ofThread_put]

theorem ops_file : ((s.file t o kind placement sources).1.ofThread t).map (·.op) =
    if o ∈ (s.ofThread t).map (·.op) then (s.ofThread t).map (·.op)
    else (s.ofThread t).map (·.op) ++ [o] := by
  apply map_file
  intro r _ hop
  rw [op_after, hop]

theorem nodup_ops_file (h : ((s.ofThread t).map (·.op)).Nodup) :
    (((s.file t o kind placement sources).1.ofThread t).map (·.op)).Nodup := by
  rw [ops_file]
  split
  · exact h
  · next hmem => exact List.nodup_append.mpr ⟨h, by simp, by simpa using hmem⟩

theorem head_ops_file {first : OpId} (h : ((s.ofThread t).map (·.op)).head? = some first) :
    (((s.file t o kind placement sources).1.ofThread t).map (·.op)).head? = some first := by
  rw [ops_file]
  split
  · exact h
  · rw [List.head?_append, h]
    rfl

end BlockStarts

namespace PhaseTracker

open BlockStarts

/-- A visited point where the operation comes first was entered both before and past the commit
point. -/
def Meeting (prog : Program) (areas : Table Point Area) (visited : List Point) (o : OpId) : Prop :=
  ∃ p ∈ visited, p.op? prog = some o ∧ areas.get? p = some .top

/-- What may be requested at an operation in dynamic mode. -/
def Fair (prog : Program) (first : OpId) (areas : Table Point Area) (visited : List Point)
    (o : OpId) (kind : BlockKind) : Prop :=
  kind ≠ .static ∧ (kind = .loopBreak → o = first ∨ Meeting prog areas visited o)

/-- The requests of a thread whose walk has recorded these areas and visited these points. -/
structure Accounted (prog : Program) (first : OpId) (requests : List BlockStart)
    (areas : Table Point Area) (visited : List Point) : Prop where
  nodup : (requests.map (·.op)).Nodup
  head : (requests.map (·.op)).head? = some first
  fair : ∀ r ∈ requests, Fair prog first areas visited r.op r.kind

variable {cx : Analysis} {pt : PhaseTracker} {t : ThreadId} {prog : Program} {first : OpId}
  {areas : Table Point Area} {visited : List Point} {b b' : BlockStarts}

theorem Accounted.file (h : Accounted prog first (b.ofThread t) areas visited) {o : OpId}
    {kind : BlockKind} {placement : Placement} {sources : List OpId}
    (hfair : Fair prog first areas visited o kind) :
    Accounted prog first ((b.file t o kind placement sources).1.ofThread t) areas visited := by
  constructor
  · exact nodup_ops_file h.nodup
  · exact head_ops_file h.head
  · exact forall_ofThread_file h.fair hfair

theorem Accounted.files {allowed : OpId → BlockKind → Placement → Prop}
    (h : Accounted prog first (b.ofThread t) areas visited)
    (hallowed : ∀ o kind placement, allowed o kind placement → Fair prog first areas visited o kind)
    (hfiles : Relation.ReflTransGen (Files t allowed) b b') :
    Accounted prog first (b'.ofThread t) areas visited := by
  apply files_keep _ hfiles h
  intro b o kind placement sources hb ho
  exact hb.file (hallowed o kind placement ho)

theorem Meeting.explore {p : Point} {area : Area} {o : OpId} (h : Meeting prog areas visited o)
    (hle : ∀ r, areas.get? p = some r → r ≤ area) :
    Meeting prog (areas.put p area) (p :: visited) o := by
  obtain ⟨q, hq, hop, htop⟩ := h
  refine ⟨q, List.mem_cons_of_mem _ hq, hop, ?_⟩
  rw [Table.get?_put]
  split
  · next heq =>
    subst heq
    have hjoin : Area.top.join area = area := hle _ htop
    rw [← hjoin, Area.join_comm]
    cases area <;> rfl
  · exact htop

theorem Accounted.explore {p : Point} {area : Area} {requests : List BlockStart}
    (h : Accounted prog first requests areas visited)
    (hle : ∀ r, areas.get? p = some r → r ≤ area) :
    Accounted prog first requests (areas.put p area) (p :: visited) where
  nodup := h.nodup
  head := h.head
  fair r hr := ⟨(h.fair r hr).1, fun hbreak =>
    ((h.fair r hr).2 hbreak).imp_right fun hmeet => hmeet.explore hle⟩

theorem processor_runs (hmode : pt.mode = .dynamic) :
    (processor cx pt t).Runs fun s s' => ∀ first areas visited,
      Accounted cx.prog first (s.requests.ofThread t) areas visited →
        Accounted cx.prog first (s'.requests.ofThread t) areas visited where
  refl _ _ _ _ h := h
  trans h k first areas visited ha := k first areas visited (h first areas visited ha)
  visit := by
    intro o a s st s' hv first areas visited ha
    apply ha.files _ (visit_files hv)
    rintro x kind placement ⟨-, hdemand⟩
    rw [demandAt, hmode] at hdemand
    obtain ⟨hstatic, hbreak⟩ := transition_dynamic hdemand
    exact ⟨hstatic, fun hk => absurd hk hbreak⟩
  afterCall h := by
    obtain ⟨-, rfl⟩ := Action.pure_ok.mp h
    exact fun _ _ _ ha => ha
  afterReturn h := by
    obtain ⟨-, rfl⟩ := Action.pure_ok.mp h
    exact fun _ _ _ ha => ha

theorem processor_explores (hmode : pt.mode = .dynamic) (first : OpId) :
    Walk.Explores cx.prog (processor cx pt t)
      (fun s areas visited => Accounted cx.prog first (s.requests.ofThread t) areas visited)
      fun _ => True := by
  intro w p a area s ops x s' hw _ hadmits hops hrun
  refine ⟨Walk.runBlock_runs (processor_runs hmode) hrun _ _ _ ?_, fun _ _ => trivial⟩
  have hgrown := hw.explore fun r hr => hadmits.recorded_le hr
  cases hadmits with
  | absent => exact hgrown
  | fresh => exact hgrown
  | @enlarged r edge hr hne hrevisit =>
    apply hgrown.files _ (revisit_files hrevisit).1
    rintro x kind placement ⟨hx, rfl, -⟩
    constructor
    · unfold revisitKind
      split <;> simp
    · intro _
      refine .inr ⟨p, List.mem_cons_self, hx, ?_⟩
      simp [Table.get?_put, Area.join_eq_top_of_ne hne]

theorem file_first {o : OpId} {s s' : Tracking} {u : Unit} (hnone : s.requests.ofThread t = [])
    (h : file cx t o .loopBreak .before [] s = .ok u s') :
    ∃ sources, s'.requests.ofThread t = [⟨o, .loopBreak, 0, .before, sources⟩] := by
  obtain ⟨o, kind, placement, sources, ⟨rfl, rfl, rfl⟩, hs⟩ := file_files h
  have hget : s.requests.get? t o = none := by simp [get?, hnone]
  exact ⟨sources, by simp [hs, BlockStarts.file, hget, ofThread_put, hnone]⟩

/-- A run in dynamic mode accounts for the requests of each thread. -/
theorem Kept.accounted {w₀ w : Walk Tracking} (h : Kept cx pt t w₀ w) (hmode : pt.mode = .dynamic) :
    ∃ first, (cx.prog.firstPoint (cx.threads.get t).proc).op? cx.prog = some first ∧
      Accounted cx.prog first (pt.requests.ofThread t) w.areas w.visited := by
  obtain ⟨first, s, hfirst, hfile, hwalk⟩ := walkThread_cases h.walked
  refine ⟨first, hfirst, ?_⟩
  rw [h.requests]
  have hstart : Accounted cx.prog first (s.requests.ofThread t) w₀.areas w₀.visited := by
    obtain ⟨sources, hs⟩ := file_first h.unrequested hfile
    rw [hs]
    constructor <;> simp [Fair]
  exact Walk.walk_keeps (w := { w₀ with state := s }) (@processor_explores cx pt t hmode first)
    h.stack hstart trivial hwalk

end PhaseTracker

end YieldPlan
