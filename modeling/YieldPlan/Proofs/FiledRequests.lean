import YieldPlan.Proofs.PhaseCoverage

/-! A tracker only changes requests by filing them, for the thread that it walks. A visit files what
its operation or region demands, and a point that is entered again files the request of a loop. What
each filing keeps, the walk of a thread keeps; a run leaves behind the requests and areas of the one
walk that it has made of each thread. -/

namespace YieldPlan

namespace BlockStarts

/-- One more request of the thread is filed, of those that are allowed. -/
def Files (t : ThreadId) (allowed : OpId → BlockKind → Placement → Prop)
    (b b' : BlockStarts) : Prop :=
  ∃ o kind placement sources, allowed o kind placement ∧
    b' = (b.file t o kind placement sources).1

variable {t u : ThreadId} {allowed allowed' : OpId → BlockKind → Placement → Prop}
  {b b' : BlockStarts}

theorem Files.mono (h : b.Files t allowed b')
    (hallowed : ∀ o kind placement, allowed o kind placement → allowed' o kind placement) :
    b.Files t allowed' b' := by
  obtain ⟨o, kind, placement, sources, ho, rfl⟩ := h
  exact ⟨o, kind, placement, sources, hallowed _ _ _ ho, rfl⟩

theorem files_mono (h : Relation.ReflTransGen (Files t allowed) b b')
    (hallowed : ∀ o kind placement, allowed o kind placement → allowed' o kind placement) :
    Relation.ReflTransGen (Files t allowed') b b' :=
  Relation.ReflTransGen.mono (fun _ _ hfile => Files.mono hfile hallowed) _ _ h

theorem ofThread_file (hu : u ≠ t) (o : OpId) (kind : BlockKind) (placement : Placement)
    (sources : List OpId) : (b.file t o kind placement sources).1.ofThread u = b.ofThread u := by
  unfold file
  split <;> simp [ofThread_put, hu]

theorem ofThread_files (hu : u ≠ t) (h : Relation.ReflTransGen (Files t allowed) b b') :
    b'.ofThread u = b.ofThread u := by
  induction h with
  | refl => rfl
  | tail _ hlast ih =>
    obtain ⟨o, kind, placement, sources, -, rfl⟩ := hlast
    rw [ofThread_file hu, ih]

theorem files_keep {I : BlockStarts → Prop}
    (hI : ∀ b o kind placement sources, I b → allowed o kind placement →
      I (b.file t o kind placement sources).1)
    (h : Relation.ReflTransGen (Files t allowed) b b') (hb : I b) : I b' := by
  induction h with
  | refl => exact hb
  | tail _ hlast ih =>
    obtain ⟨o, kind, placement, sources, ho, rfl⟩ := hlast
    exact hI _ _ _ _ _ ih ho

theorem eq_of_files (h : Relation.ReflTransGen (Files t allowed) b b')
    (hnone : ∀ o kind placement, ¬ allowed o kind placement) : b' = b := by
  apply files_keep (I := (· = b)) _ h rfl
  intro c o kind placement sources _ ho
  exact absurd ho (hnone o kind placement)

end BlockStarts

namespace PhaseTracker

open BlockStarts

variable {cx : Analysis} {pt pt' : PhaseTracker} {t : ThreadId}

theorem file_files {o : OpId} {kind : BlockKind} {placement : Placement} {sources : List OpId}
    {s s' : Tracking} {u : Unit} (h : file cx t o kind placement sources s = .ok u s') :
    s.requests.Files t (fun x k p => x = o ∧ k = kind ∧ p = placement) s'.requests := by
  cases h
  exact ⟨o, kind, placement, _, ⟨rfl, rfl, rfl⟩, rfl⟩

theorem fileAll_files {kind : BlockKind} {placement : Placement} {sources ops : List OpId}
    {s s' : Tracking} {u : Unit} (h : fileAll cx t kind placement sources ops s = .ok u s') :
    Relation.ReflTransGen (Files t fun x k p => x ∈ ops ∧ k = kind ∧ p = placement)
      s.requests s'.requests := by
  induction ops generalizing s with
  | nil =>
    cases h
    exact .refl
  | cons o rest ih =>
    obtain ⟨_, v, hfile, hrest⟩ := Action.bind_ok.mp h
    apply Relation.ReflTransGen.head
    · apply (file_files hfile).mono
      rintro x k p ⟨rfl, hk, hp⟩
      exact ⟨List.mem_cons_self, hk, hp⟩
    · apply files_mono (ih hrest)
      intro x k p hx
      exact ⟨List.mem_cons_of_mem _ hx.1, hx.2⟩

theorem visitRegion_files {o : OpId} {a : Area} {s s' : Tracking} {st : Step}
    (h : visitRegion cx pt t o a s = .ok st s') :
    ∃ region, regionAt cx pt o = .ok region ∧
      Relation.ReflTransGen (Files t fun x k p => x ∈ region.ends ∧
        (transition pt.mode pt.conflictChecks region.kind a).2 = some (k, p))
        s.requests s'.requests := by
  obtain ⟨region, v, hat, -, hsame, -, hcases⟩ := visitRegion_cases h
  refine ⟨region, hat, ?_⟩
  rw [← hsame]
  rcases hcases with ⟨-, rfl⟩ | ⟨kind, placement, hd, hfile⟩
  · exact .refl
  · apply files_mono (fileAll_files hfile)
    rintro x k p ⟨hx, rfl, rfl⟩
    exact ⟨hx, hd⟩

theorem visitMover_files {o : OpId} {a : Area} {s s' : Tracking} {st : Step}
    (h : visitMover cx pt t o a s = .ok st s') :
    Relation.ReflTransGen (Files t fun x k p => x = o ∧
      (transition pt.mode pt.conflictChecks (cx.movability.movable cx.prog o) a).2 = some (k, p))
      s.requests s'.requests := by
  obtain ⟨-, ⟨-, rfl⟩ | ⟨kind, placement, hd, hfile⟩⟩ := visitMover_cases h
  · exact .refl
  · apply Relation.ReflTransGen.single
    apply (file_files hfile).mono
    rintro x k p ⟨rfl, rfl, rfl⟩
    exact ⟨rfl, hd⟩

theorem visit_files {o : OpId} {a : Area} {s s' : Tracking} {st : Step}
    (h : visit cx pt t o a s = .ok st s') :
    Relation.ReflTransGen (Files t fun x k p =>
      x ∈ requestOps cx pt o ∧ demandAt cx pt o a = some (k, p)) s.requests s'.requests := by
  show Relation.ReflTransGen _ (recordArea o a s).requests s'.requests
  rcases visit_cases h with ⟨-, -, rfl⟩ | ⟨hk, h₁⟩ | ⟨-, h₁⟩ | ⟨-, hk, h₁⟩
  · exact .refl
  · obtain ⟨region, hat, hfiles⟩ := visitRegion_files h₁
    have hopen := opens?_of_region hk hat
    simpa only [requestOps, demandAt, moverAt, hopen] using hfiles
  · obtain ⟨-, -, hsame⟩ := visitStrayEnd_ok h₁
    rw [hsame]
  · have hopen : opens? cx pt o = none := opens?_of_ne hk
    simpa only [requestOps, demandAt, moverAt, hopen, List.mem_singleton] using
      visitMover_files h₁

theorem revisit_files {p : Point} {a : Area} {edge : Edge} {s s' : Tracking} {u : Unit}
    (h : revisit cx pt t p a edge s = .ok u s') :
    Relation.ReflTransGen (Files t fun x k placement =>
      p.op? cx.prog = some x ∧ k = revisitKind pt edge ∧ placement = .before)
      s.requests s'.requests ∧ s'.opAreas = s.opAreas := by
  rcases revisit_cases h with rfl | ⟨o, ho, h₁⟩
  · exact ⟨.refl, rfl⟩
  · refine ⟨.single ((file_files h₁).mono ?_), ?_⟩
    · rintro x k q ⟨rfl, hk, hq⟩
      exact ⟨ho, hk, hq⟩
    · cases h₁
      rfl

theorem processor_files : (processor cx pt t).Respects fun s s' =>
    Relation.ReflTransGen (Files t fun _ _ _ => True) s.requests s'.requests where
  refl _ := .refl
  trans := .trans
  visit h := files_mono (visit_files h) fun _ _ _ _ => trivial
  afterCall h := (Action.pure_ok.mp h).2 ▸ .refl
  afterReturn h := (Action.pure_ok.mp h).2 ▸ .refl
  revisit h := files_mono (revisit_files h).1 fun _ _ _ _ => trivial

theorem walkThread_files {w₀ w : Walk Tracking} (h : walkThread cx pt t w₀ = .ok () w) :
    Relation.ReflTransGen (Files t fun _ _ _ => True) w₀.state.requests w.state.requests := by
  obtain ⟨o, s, -, hfile, hwalk⟩ := walkThread_cases h
  apply Relation.ReflTransGen.head
  · exact (file_files hfile).mono fun _ _ _ _ => trivial
  · exact Walk.walk_respects processor_files hwalk

theorem walkThread_congr (h : SameSetup pt pt') :
    walkThread cx pt' t = walkThread cx pt t := by
  unfold walkThread
  rw [processor_congr h]

/-- The tracker has walked the thread from scratch, and has kept its requests and areas. -/
structure Kept (cx : Analysis) (pt : PhaseTracker) (t : ThreadId) (w₀ w : Walk Tracking) :
    Prop where
  stack : w₀.stack = []
  visited : w₀.visited = []
  areas : w₀.areas = {}
  unrequested : w₀.state.requests.ofThread t = []
  walked : walkThread cx pt t w₀ = .ok () w
  requests : pt.requests.ofThread t = w.state.requests.ofThread t
  recorded : pt.areas.get? t = some w.areas

variable {n : Nat}

theorem addThread_others (h : (addThread cx pt t).result = .ok (pt', n)) {u : ThreadId}
    (hu : u ≠ t) : pt'.requests.ofThread u = pt.requests.ofThread u ∧
      pt'.areas.get? u = pt.areas.get? u := by
  obtain ⟨w, hw, rfl⟩ := addThread_cases h
  constructor
  · exact ofThread_files hu (walkThread_files hw)
  · simp [areas_absorb, hu]

theorem addThread_kept (h : (addThread cx pt t).result = .ok (pt', n))
    (hrequests : pt.requests.ofThread t = []) (hareas : pt.areas.get? t = none) :
    ∃ w₀ w, Kept cx pt' t w₀ w := by
  obtain ⟨w, hw, rfl⟩ := addThread_cases h
  refine ⟨start pt t, w, rfl, rfl, ?_, hrequests, ?_, rfl, ?_⟩
  · simp [start, hareas]
  · rw [walkThread_congr (absorb_setup t w)]
    exact hw
  · simp [areas_absorb]

theorem Kept.congr {w₀ w : Walk Tracking} (h : Kept cx pt t w₀ w) (hsetup : SameSetup pt pt')
    (hrequests : pt'.requests.ofThread t = pt.requests.ofThread t)
    (hareas : pt'.areas.get? t = pt.areas.get? t) : Kept cx pt' t w₀ w where
  stack := h.stack
  visited := h.visited
  areas := h.areas
  unrequested := h.unrequested
  walked := by
    rw [walkThread_congr hsetup]
    exact h.walked
  requests := hrequests.trans h.requests
  recorded := hareas.trans h.recorded

theorem Kept.finished {w₀ w : Walk Tracking} (h : Kept cx pt t w₀ w) :
    Finished cx pt t w.visited w.areas w.state := (walkThread_ok h.visited h.walked).1

theorem addThreads_others {ts : List ThreadId} (h : (addThreads cx pt ts).result = .ok (pt', n))
    {u : ThreadId} (hu : u ∉ ts) : pt'.requests.ofThread u = pt.requests.ofThread u ∧
      pt'.areas.get? u = pt.areas.get? u := by
  induction ts generalizing pt n with
  | nil =>
    cases h
    exact ⟨rfl, rfl⟩
  | cons t ts ih =>
    obtain ⟨pt₁, n₁, n₂, h₁, h₂, -⟩ := addThreads_cons h
    obtain ⟨hrequests₁, hareas₁⟩ := addThread_others h₁ (List.ne_of_not_mem_cons hu)
    obtain ⟨hrequests₂, hareas₂⟩ := ih h₂ (List.not_mem_of_not_mem_cons hu)
    exact ⟨hrequests₂.trans hrequests₁, hareas₂.trans hareas₁⟩

theorem addThreads_kept {ts : List ThreadId} (hnd : ts.Nodup)
    (h : (addThreads cx pt ts).result = .ok (pt', n))
    (hfresh : ∀ t ∈ ts, pt.requests.ofThread t = [] ∧ pt.areas.get? t = none) :
    ∀ t ∈ ts, ∃ w₀ w, Kept cx pt' t w₀ w := by
  induction ts generalizing pt n with
  | nil => simp
  | cons t ts ih =>
    obtain ⟨pt₁, n₁, n₂, h₁, h₂, -⟩ := addThreads_cons h
    obtain ⟨hnot, hnd⟩ := List.nodup_cons.mp hnd
    obtain ⟨⟨hrequests, hareas⟩, hrest⟩ := List.forall_mem_cons.mp hfresh
    intro u hu
    rcases List.mem_cons.mp hu with rfl | hu
    · obtain ⟨w₀, w, hkept⟩ := addThread_kept h₁ hrequests hareas
      obtain ⟨hrequests', hareas'⟩ := addThreads_others h₂ hnot
      exact ⟨w₀, w, hkept.congr (addThreads_ok h₂).1 hrequests' hareas'⟩
    · apply ih hnd h₂ _ u hu
      intro v hv
      obtain ⟨hrequests', hareas'⟩ := addThread_others h₁ fun he => hnot (he ▸ hv)
      exact ⟨hrequests'.trans (hrest v hv).1, hareas'.trans (hrest v hv).2⟩

/-- A run from scratch has made one walk of each thread. -/
theorem run_kept {mode : Mode} {checks : Bool}
    (h : (run cx { mode, conflictChecks := checks }).result = .ok (pt', n))
    (ht : t ∈ cx.threads.ids) : ∃ w₀ w, Kept cx pt' t w₀ w := by
  obtain ⟨pt₁, h₁, h₂⟩ := run_cases h
  obtain ⟨hview, hareas, -⟩ := addRegions_view h₁
  have hrequests : pt₁.requests = {} := congrArg Tracking.requests hview
  apply addThreads_kept List.nodup_range h₂ _ t ht
  intro u _
  rw [hrequests, hareas]
  exact ⟨rfl, rfl⟩

end PhaseTracker

end YieldPlan
