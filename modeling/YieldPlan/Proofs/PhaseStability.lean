import YieldPlan.Proofs.AnalysisStages
import YieldPlan.Proofs.PhaseCoverage
import YieldPlan.Proofs.WalkOutcome

/-! What the tracker did once it can do again: from any state that has kept the first outcome, the
same action gives the same answer, files nothing and enlarges nothing. The areas recorded at the end
of a walk are those in which its points were last run, so a second walk over them only repeats. -/

namespace YieldPlan

namespace PhaseTracker

variable {cx : Analysis} {pt : PhaseTracker} {t : ThreadId}

structure Tracking.Keeps (s s' : Tracking) : Prop where
  opAreas : ∀ o a, s.opAreas.get? o = some a → ∃ b, s'.opAreas.get? o = some b ∧ a ≤ b
  absorbs : ∀ {t o kind sources}, s.requests.Absorbs t o kind sources →
    s'.requests.Absorbs t o kind sources

theorem Tracking.Keeps.refl (s : Tracking) : s.Keeps s :=
  ⟨fun _ a h => ⟨a, h, Area.le_refl a⟩, id⟩

theorem Tracking.Keeps.trans {a b c : Tracking} (h : a.Keeps b) (k : b.Keeps c) : a.Keeps c where
  opAreas o x hx := by
    obtain ⟨y, hy, hxy⟩ := h.opAreas o x hx
    obtain ⟨z, hz, hyz⟩ := k.opAreas o y hy
    exact ⟨z, hz, Area.le_trans hxy hyz⟩
  absorbs hs := k.absorbs (h.absorbs hs)

structure Tracking.Alike (s s' : Tracking) : Prop where
  requests : ∀ t, s'.requests.ofThread t = s.requests.ofThread t
  opAreas : ∀ o, s'.opAreas.get? o = s.opAreas.get? o
  changes : s'.changes = s.changes

theorem Tracking.Alike.refl (s : Tracking) : s.Alike s := ⟨fun _ => rfl, fun _ => rfl, rfl⟩

theorem Tracking.Alike.trans {a b c : Tracking} (h : a.Alike b) (k : b.Alike c) : a.Alike c :=
  ⟨fun t => (k.requests t).trans (h.requests t), fun o => (k.opAreas o).trans (h.opAreas o),
    k.changes.trans h.changes⟩

theorem Tracking.Alike.keeps {s s' : Tracking} (h : s.Alike s') : s.Keeps s' where
  opAreas o a ha := ⟨a, (h.opAreas o).trans ha, Area.le_refl a⟩
  absorbs hs := hs.congr h.requests

/-- Once the action has answered, it answers the same from every state that has kept its outcome, and
leaves that state as it is. -/
def Repeats {α : Type} (x : Action Tracking α) : Prop :=
  ∀ u a u', x u = .ok a u' → u.Keeps u' ∧ ∀ s, u'.Keeps s → ∃ s', x s = .ok a s' ∧ s.Alike s'

theorem repeats_pure {α : Type} (a : α) : Repeats (pure a : Action Tracking α) := by
  intro u b u' h
  obtain ⟨rfl, rfl⟩ := Action.pure_ok.mp h
  exact ⟨.refl _, fun s _ => ⟨s, rfl, .refl s⟩⟩

theorem repeats_check {α : Type} (x : Checked α) : Repeats (Action.check x : Action Tracking α) := by
  intro u a u' h
  obtain ⟨hx, rfl⟩ := Action.check_ok.mp h
  exact ⟨.refl _, fun s _ => ⟨s, Action.check_ok.mpr ⟨hx, rfl⟩, .refl s⟩⟩

theorem Repeats.bind {α β : Type} {x : Action Tracking α} {f : α → Action Tracking β}
    (hx : Repeats x) (hf : ∀ a, Repeats (f a)) : Repeats (x >>= f) := by
  intro u b u' h
  obtain ⟨a, v, h₁, h₂⟩ := Action.bind_ok.mp h
  obtain ⟨hkept₁, hagain₁⟩ := hx u a v h₁
  obtain ⟨hkept₂, hagain₂⟩ := hf a v b u' h₂
  refine ⟨hkept₁.trans hkept₂, fun s hs => ?_⟩
  obtain ⟨s₁, hs₁, halike₁⟩ := hagain₁ s (hkept₂.trans hs)
  obtain ⟨s₂, hs₂, halike₂⟩ := hagain₂ s₁ (hs.trans halike₁.keeps)
  exact ⟨s₂, Action.bind_ok.mpr ⟨a, s₁, hs₁, hs₂⟩, halike₁.trans halike₂⟩

theorem repeats_note (events : List Event) : Repeats (note events) := by
  intro u a u' h
  obtain rfl := Action.modify_ok.mp h
  have halike : ∀ s : Tracking, s.Alike { s with events := s.events ++ events } :=
    fun _ => ⟨fun _ => rfl, fun _ => rfl, rfl⟩
  exact ⟨(halike u).keeps, fun s _ => ⟨_, rfl, halike s⟩⟩

theorem repeats_recordArea (o : OpId) (a : Area) :
    Repeats (modify (recordArea o a) : Action Tracking Unit) := by
  intro u x u' h
  obtain rfl := Action.modify_ok.mp h
  refine ⟨⟨(recordArea_grows o a u).opAreas, id⟩, fun s hs => ⟨_, rfl, fun _ => rfl, ?_, rfl⟩⟩
  obtain ⟨c, hc, hac⟩ := recordArea_area o a u
  obtain ⟨b, hb, hcb⟩ := hs.opAreas o c hc
  have hjoin : b.join a = b := (Area.join_comm b a).trans (Area.le_trans hac hcb)
  intro x
  by_cases hx : x = o
  · subst hx
    simp [recordArea, Table.get?_put, hb, hjoin]
  · simp [recordArea, Table.get?_put, hx]

theorem repeats_file {o : OpId} {kind : BlockKind} {placement : Placement} {sources : List OpId}
    (hsorted : sortNats sources = sources) :
    Repeats (file cx t o kind placement sources) := by
  have hsrc : sortNats (if kind = .dynamicConflict then sources else []) =
      if kind = .dynamicConflict then sources else [] := by
    split
    · exact hsorted
    · rfl
  intro u x u' h
  cases h
  refine ⟨⟨fun x a hx => ⟨a, hx, Area.le_refl a⟩, fun hs => hs.file⟩, fun s hs => ?_⟩
  obtain ⟨hdropped, hsame⟩ :=
    (hs.absorbs (BlockStarts.file_absorbs u.requests t o kind placement hsrc)).file_eq placement
  exact ⟨_, rfl, hsame, fun _ => rfl, if_pos hdropped⟩

theorem repeats_fileAll {kind : BlockKind} {placement : Placement} {sources : List OpId}
    (hsorted : sortNats sources = sources) (ops : List OpId) :
    Repeats (fileAll cx t kind placement sources ops) := by
  induction ops with
  | nil => exact repeats_pure ()
  | cons o rest ih => exact (repeats_file hsorted).bind fun _ => ih

theorem repeats_regionOf (o : OpId) : Repeats (regionOf cx pt o) := by
  unfold regionOf
  split
  · exact repeats_pure _
  · exact (repeats_note _).bind fun _ => repeats_check _

theorem sortNats_regionSources (region : AtomicRegion) :
    sortNats (regionSources cx region) = regionSources cx region := by
  apply sortNats_congr
  simp [regionSources]

theorem repeats_visitRegion (o : OpId) (a : Area) : Repeats (visitRegion cx pt t o a) := by
  refine (repeats_regionOf o).bind fun region => ?_
  dsimp only
  split
  · exact (repeats_fileAll (sortNats_regionSources region) _).bind fun _ => repeats_pure _
  · exact (repeats_pure _).bind fun _ => repeats_pure _

theorem repeats_visitStrayEnd (o : OpId) (a : Area) : Repeats (visitStrayEnd cx o a) := by
  have hends : ∀ s, ∃ s', visitStrayEnd cx o a s = .ok (.continue a) s' ∧ s.Alike s' := by
    intro s
    by_cases hnew : o ∉ s.strayEnds
    · exact ⟨_, congrFun (if_pos hnew) s, fun _ => rfl, fun _ => rfl, rfl⟩
    · exact ⟨s, congrFun (if_neg hnew) s, .refl s⟩
  intro u st u' h
  obtain ⟨v, hv, halike⟩ := hends u
  rw [hv] at h
  cases h
  exact ⟨halike.keeps, fun s _ => hends s⟩

theorem repeats_visitMover {o : OpId} (a : Area)
    (hsorted : sortNats (cx.conflicts.conflictsWith o) = cx.conflicts.conflictsWith o) :
    Repeats (visitMover cx pt t o a) := by
  unfold visitMover
  dsimp only
  split
  · exact (repeats_file hsorted).bind fun _ => repeats_pure _
  · exact (repeats_pure _).bind fun _ => repeats_pure _

def SortedConflicts (cx : Analysis) : Prop :=
  ∀ o, sortNats (cx.conflicts.conflictsWith o) = cx.conflicts.conflictsWith o

theorem repeats_visit (hsorted : SortedConflicts cx) (o : OpId) (a : Area) :
    Repeats (visit cx pt t o a) := by
  refine (repeats_recordArea o a).bind fun _ => ?_
  split
  · exact repeats_pure _
  · exact repeats_visitRegion o a
  · exact repeats_visitStrayEnd o a
  · exact repeats_visitMover a (hsorted o)

theorem repeats_revisit (p : Point) (a : Area) (edge : Edge) :
    Repeats (revisit cx pt t p a edge) := by
  unfold revisit
  split
  · exact (repeats_check _).bind fun _ => repeats_file rfl
  · exact repeats_pure _

theorem repeats_follow (b : Block) (succs : List Point) (k : OpKind) :
    Repeats (Walk.follow (processor cx pt t) b succs k) := by
  cases k with
  | terminator t => cases t <;> exact repeats_pure _
  | _ => exact repeats_pure _

theorem repeats_runBlock (hsorted : SortedConflicts cx) (b : Block) (a : Area) (succs : List Point)
    (ops : List OpId) : Repeats (Walk.runBlock cx.prog (processor cx pt t) b a succs ops) := by
  induction ops generalizing a succs with
  | nil => exact repeats_pure _
  | cons o rest ih =>
    rw [Walk.runBlock]
    refine (repeats_visit hsorted o a).bind fun st => ?_
    cases st with
    | jump a points => exact repeats_pure _
    | «continue» a =>
      dsimp only
      split
      · exact (repeats_pure _).bind fun _ => repeats_pure _
      · exact (repeats_follow b succs _).bind fun succs => ih a succs

theorem processor_keeps (hsorted : SortedConflicts cx) :
    (processor cx pt t).Respects Tracking.Keeps where
  refl := .refl
  trans := .trans
  visit h := (repeats_visit hsorted _ _ _ _ _ h).1
  afterCall h := (repeats_pure _ _ _ _ h).1
  afterReturn h := (repeats_pure _ _ _ _ h).1
  revisit h := (repeats_revisit _ _ _ _ _ _ h).1

def Done {α : Type} (x : Action Tracking α) (a : α) (s : Tracking) : Prop :=
  ∃ u u', x u = .ok a u' ∧ u'.Keeps s

theorem Done.keeps {α : Type} {x : Action Tracking α} {a : α} {s s' : Tracking} (h : Done x a s)
    (hs : s.Keeps s') : Done x a s' := by
  obtain ⟨u, u', hx, hkept⟩ := h
  exact ⟨u, u', hx, hkept.trans hs⟩

theorem Done.again {α : Type} {x : Action Tracking α} {a : α} {s : Tracking} (h : Done x a s)
    (hx : Repeats x) : ∃ s', x s = .ok a s' ∧ s.Alike s' := by
  obtain ⟨u, u', hu, hkept⟩ := h
  exact (hx u a u' hu).2 s hkept

def areaAt? (pt : PhaseTracker) (t : ThreadId) (p : Point) : Option Area :=
  ((pt.areas.get? t).getD {}).get? p

/-- The walk of a thread has been made: its first block was requested, and its points were run in
the areas `N`. -/
structure Walked (cx : Analysis) (pt : PhaseTracker) (t : ThreadId) (points : List Point)
    (N : Point → Option Area) (s : Tracking) : Prop where
  requested : ∃ o, (cx.prog.firstPoint (cx.threads.get t).proc).op? cx.prog = some o ∧
    Done (file cx t o .loopBreak .before []) () s
  first : cx.prog.firstPoint (cx.threads.get t).proc ∈ points ∧
    ∃ b, N (cx.prog.firstPoint (cx.threads.get t).proc) = some b ∧ Area.pre ≤ b
  ran : ∀ p ∈ points, ∃ a ops out next, N p = some a ∧ p.ops? cx.prog = some ops ∧
    Done (Walk.runBlock cx.prog (processor cx pt t) (cx.prog.block p.block) a [] ops) (out, next) s ∧
    ∀ q ∈ next, q ∈ points ∧ ∃ b, N q = some b ∧ out ≤ b

variable {points : List Point} {N : Point → Option Area} {s : Tracking}

theorem Walked.congr {pt' : PhaseTracker} {s' : Tracking} (h : Walked cx pt t points N s)
    (hsetup : SameSetup pt pt') (hs : s.Keeps s') : Walked cx pt' t points N s' where
  requested := by
    obtain ⟨o, ho, hdone⟩ := h.requested
    exact ⟨o, ho, hdone.keeps hs⟩
  first := h.first
  ran p hp := by
    obtain ⟨a, ops, out, next, ha, hops, hdone, hnext⟩ := h.ran p hp
    exact ⟨a, ops, out, next, ha, hops, by rw [processor_congr hsetup]; exact hdone.keeps hs, hnext⟩

theorem walkThread_walked (hsorted : SortedConflicts cx) {w : Walk Tracking}
    (h : walkThread cx pt t (start pt t) = .ok () w) :
    Walked cx pt t w.visited w.areas.get? w.state ∧ (view pt).Keeps w.state := by
  obtain ⟨o, u, ho, hfile, hwalk⟩ := walkThread_cases h
  obtain ⟨-, hkept, hfirst, hran⟩ := Walk.walk_covers (processor_keeps hsorted) rfl hwalk
  refine ⟨⟨⟨o, ho, _, _, hfile, hkept⟩, hfirst, ?_⟩,
    ((repeats_file rfl) _ _ _ hfile).1.trans hkept⟩
  intro p hp
  obtain ⟨a, ops, out, next, u, u', ha, hops, hrun, hu, hnext⟩ := hran p hp
  exact ⟨a, ops, out, next, ha, hops, ⟨u, u', hrun, hu⟩, hnext⟩

/-- A second walk meets every point in an area that is already recorded. -/
theorem Walked.safe (hsorted : SortedConflicts cx) (h : Walked cx pt t points N s) :
    Walk.Safe cx.prog (processor cx pt t) (fun s' areas => s.Alike s' ∧ areas.get? = N)
      (fun p a => p ∈ points ∧ ∃ b, N p = some b ∧ a ≤ b) fun _ => False where
  revisit := by
    rintro w p r a edge ⟨-, hareas⟩ ⟨-, b, hb, hle⟩ hr hne
    rw [hareas, hb] at hr
    cases hr
    exact absurd ((Area.join_comm _ _).trans hle) hne
  explore := by
    rintro w p a area s' ⟨halike, hareas⟩ ⟨hp, b, hb, hle⟩ hadmits
    have hsame : area = b ∧ s' = w.state := by
      cases hadmits with
      | absent hn => rw [hareas, hb] at hn; cases hn
      | enlarged hr hne =>
        rw [hareas, hb] at hr
        cases hr
        exact absurd ((Area.join_comm _ _).trans hle) hne
      | fresh hr =>
        rw [hareas, hb] at hr
        cases hr
        exact ⟨rfl, rfl⟩
    obtain ⟨rfl, rfl⟩ := hsame
    obtain ⟨a', ops, out, next, ha', hops, hdone, hnext⟩ := h.ran p hp
    obtain rfl : area = a' := Option.some.inj (hb.symm.trans ha')
    obtain ⟨s', hrun, hs'⟩ :=
      (hdone.keeps halike.keeps).again (repeats_runBlock hsorted _ _ _ _)
    refine ⟨ops, hops, .of_ok hrun ⟨⟨halike.trans hs', ?_⟩, hnext⟩⟩
    funext q
    by_cases hq : q = p
    · subst hq
      simp [Table.get?_put, hb]
    · simp [Table.get?_put, hq, hareas]

theorem walkThread_again (hsorted : SortedConflicts cx)
    (h : Walked cx pt t points (pt.areaAt? t) (view pt)) :
    ∃ w, walkThread cx pt t (start pt t) = .ok () w ∧ (view pt).Alike w.state ∧
      w.areas.get? = pt.areaAt? t := by
  obtain ⟨o, ho, hdone⟩ := h.requested
  obtain ⟨s, hs, halike⟩ := hdone.again (repeats_file rfl)
  have hends : (walkThread cx pt t).Ends (start pt t)
      (fun _ w => (view pt).Alike w.state ∧ w.areas.get? = pt.areaAt? t) fun _ => False := by
    refine .bind_ok (Action.check_ok.mpr ⟨Checked.index_ok.mpr ho, rfl⟩) ?_
    refine .bind_ok (Walk.lift_ok.mpr ⟨s, hs, rfl⟩) ?_
    exact Walk.walk_ends (h.safe hsorted) rfl ⟨halike, rfl⟩ h.first
  obtain ⟨_, w, hw, hkept⟩ := hends.ok
  exact ⟨w, hw, hkept⟩

/-- The same requests in the same order, and the same areas of points and operations. -/
structure SameRecords (pt pt' : PhaseTracker) : Prop where
  requests : ∀ t, pt'.requests.ofThread t = pt.requests.ofThread t
  areas : ∀ t p, pt'.areaAt? t p = pt.areaAt? t p
  opAreas : ∀ o, pt'.opAreas.get? o = pt.opAreas.get? o

theorem SameRecords.trans {a b c : PhaseTracker} (h : SameRecords a b) (k : SameRecords b c) :
    SameRecords a c :=
  ⟨fun t => (k.requests t).trans (h.requests t), fun t p => (k.areas t p).trans (h.areas t p),
    fun o => (k.opAreas o).trans (h.opAreas o)⟩

def Settled (cx : Analysis) (pt : PhaseTracker) (t : ThreadId) : Prop :=
  ∃ points, Walked cx pt t points (pt.areaAt? t) (view pt)

theorem areaAt?_absorb (w : Walk Tracking) (u : ThreadId) :
    (pt.absorb t w).areaAt? u = if u = t then w.areas.get? else pt.areaAt? u := by
  funext p
  by_cases hu : u = t
  · subst hu
    simp [areaAt?, areas_absorb]
  · simp [areaAt?, areas_absorb, hu]

theorem addThread_settles (hsorted : SortedConflicts cx) {pt' : PhaseTracker} {n : Nat}
    (h : (addThread cx pt t).result = .ok (pt', n)) :
    Settled cx pt' t ∧ ∀ u, Settled cx pt u → Settled cx pt' u := by
  obtain ⟨w, hw, rfl⟩ := addThread_cases h
  obtain ⟨hwalked, hkept⟩ := walkThread_walked hsorted hw
  have hsetup : SameSetup pt (pt.absorb t w) := absorb_setup t w
  have hview : w.state.Keeps (view (pt.absorb t w)) :=
    ⟨fun _ a ha => ⟨a, ha, Area.le_refl a⟩, id⟩
  have hself : Settled cx (pt.absorb t w) t := by
    refine ⟨w.visited, ?_⟩
    rw [areaAt?_absorb, if_pos rfl]
    exact hwalked.congr hsetup hview
  refine ⟨hself, ?_⟩
  rintro u ⟨points, hu⟩
  by_cases hut : u = t
  · exact hut ▸ hself
  · refine ⟨points, ?_⟩
    rw [areaAt?_absorb, if_neg hut]
    exact hu.congr hsetup (hkept.trans hview)

theorem addThreads_settles (hsorted : SortedConflicts cx) {ts : List ThreadId}
    {pt pt' : PhaseTracker} {n : Nat} (h : (addThreads cx pt ts).result = .ok (pt', n)) :
    (∀ t ∈ ts, Settled cx pt' t) ∧ ∀ u, Settled cx pt u → Settled cx pt' u := by
  induction ts generalizing pt n with
  | nil =>
    cases h
    exact ⟨by simp, fun _ => id⟩
  | cons t ts ih =>
    obtain ⟨pt₁, n₁, n₂, h₁, h₂, -⟩ := addThreads_cons h
    obtain ⟨hself, hothers⟩ := addThread_settles hsorted h₁
    obtain ⟨hrest, hkept⟩ := ih h₂
    refine ⟨?_, fun u hu => hkept u (hothers u hu)⟩
    intro u hu
    rcases List.mem_cons.mp hu with rfl | hu
    · exact hkept u hself
    · exact hrest u hu

theorem addThread_again (hsorted : SortedConflicts cx) (h : Settled cx pt t) :
    ∃ pt', (addThread cx pt t).result = .ok (pt', 0) ∧ SameRecords pt pt' := by
  obtain ⟨points, hwalked⟩ := h
  obtain ⟨w, hw, halike, hareas⟩ := walkThread_again hsorted hwalked
  refine ⟨pt.absorb t w, ?_, halike.requests, ?_, halike.opAreas⟩
  · have hchanges : w.state.changes = 0 := halike.changes
    simp [addThread, hw, hchanges]
  · intro u p
    rw [areaAt?_absorb]
    split
    · next hu => rw [hareas, hu]
    · rfl

theorem addThreads_again (hsorted : SortedConflicts cx) {ts : List ThreadId} {pt : PhaseTracker}
    (h : ∀ t ∈ ts, Settled cx pt t) :
    ∃ pt', (addThreads cx pt ts).result = .ok (pt', 0) ∧ SameRecords pt pt' := by
  induction ts generalizing pt with
  | nil => exact ⟨pt, rfl, fun _ => rfl, fun _ _ => rfl, fun _ => rfl⟩
  | cons t ts ih =>
    obtain ⟨pt₁, h₁, hsame₁⟩ := addThread_again hsorted (h t List.mem_cons_self)
    have hrest : ∀ u ∈ ts, Settled cx pt₁ u := fun u hu =>
      (addThread_settles hsorted h₁).2 u (h u (List.mem_cons_of_mem _ hu))
    obtain ⟨pt₂, h₂, hsame₂⟩ := ih hrest
    refine ⟨pt₂, ?_, hsame₁.trans hsame₂⟩
    simp only [addThreads, Traced.result_bind]
    exact Checked.bind_ok.mpr ⟨_, h₁, Checked.bind_ok.mpr ⟨_, h₂, rfl⟩⟩

def Reran (cx : Analysis) (pt pt' : PhaseTracker) : Prop :=
  ∃ n, (rerun cx pt).result = .ok (pt', n)

theorem reran_again (hsorted : SortedConflicts cx) {pt pt' : PhaseTracker}
    (h : ∀ t ∈ cx.threads.ids, Settled cx pt t)
    (hreran : Relation.ReflTransGen (Reran cx) pt pt') :
    SameRecords pt pt' ∧ ∀ t ∈ cx.threads.ids, Settled cx pt' t := by
  induction hreran with
  | refl => exact ⟨⟨fun _ => rfl, fun _ _ => rfl, fun _ => rfl⟩, h⟩
  | @tail pt₁ pt₂ _ hlast ih =>
    obtain ⟨hsame, hsettled⟩ := ih
    obtain ⟨n, hn⟩ := hlast
    obtain ⟨pt₃, h₃, hsame₃⟩ := addThreads_again hsorted hsettled
    obtain ⟨rfl, -⟩ := Prod.mk.inj (Except.ok.inj (h₃.symm.trans hn))
    exact ⟨hsame.trans hsame₃, (addThreads_settles hsorted hn).1⟩

end PhaseTracker

theorem Analyzed.sortedConflicts {prog : Program} {mayAlias : AliasOracle} {cx : Analysis}
    (h : Analyzed prog mayAlias cx) : PhaseTracker.SortedConflicts cx := by
  intro o
  unfold Conflicts.conflictsWith
  cases hget : cx.conflicts.table.get? o with
  | none => rfl
  | some found =>
    obtain ⟨-, t, rfl⟩ := (Program.conflicts_ok h.conflicts).2 o found hget
    exact sortNats_congr fun _ => mem_sortNats

open PhaseTracker in
/-- After a run of the tracker, however often all threads have been walked again since, one more pass
succeeds, files nothing, and leaves all requests and areas as the run left them. -/
theorem reruns_change_nothing {prog : Program} {mayAlias : AliasOracle} {cx : Analysis}
    (hcx : (prog.analyze mayAlias).result = .ok cx) {pt pt' : PhaseTracker} {n : Nat}
    (h : (run cx pt).result = .ok (pt', n)) {pt₁ : PhaseTracker}
    (hreran : Relation.ReflTransGen (Reran cx) pt' pt₁) :
    ∃ pt₂, (rerun cx pt₁).result = .ok (pt₂, 0) ∧ SameRecords pt' pt₂ := by
  have hsorted := (Program.analyze_ok hcx).sortedConflicts
  simp only [run, Traced.result_bind, Traced.result_log] at h
  obtain ⟨pt₀, -, h⟩ := Checked.bind_ok.mp h
  obtain ⟨⟨pt₃, n₃⟩, hrun, h⟩ := Checked.bind_ok.mp h
  cases h
  obtain ⟨hsame, hsettled⟩ := reran_again hsorted (addThreads_settles hsorted hrun).1 hreran
  obtain ⟨pt₂, h₂, hsame₂⟩ := addThreads_again hsorted hsettled
  exact ⟨pt₂, h₂, hsame.trans hsame₂⟩

open PhaseTracker in
/-- Two more passes over a program with a yield and three requests. -/
theorem racy_stays_as_it_is :
    ∃ pt₁ pt₂, (rerun Reduction.racy.analysis Reduction.racy.tracker).result = .ok (pt₁, 0) ∧
      (rerun Reduction.racy.analysis pt₁).result = .ok (pt₂, 0) ∧
      SameRecords Reduction.racy.tracker pt₂ ∧
      (pt₂.requests.ofThread 0).map (·.op) = [0, 3] := by
  obtain ⟨hcx, checks, n, hrun, -⟩ := Program.reduceWith_ok Program.reduce_racy
  obtain ⟨pt₁, h₁, -⟩ := reruns_change_nothing hcx hrun .refl
  obtain ⟨pt₂, h₂, hsame⟩ := reruns_change_nothing hcx hrun (.single ⟨0, h₁⟩)
  refine ⟨pt₁, pt₂, h₁, h₂, hsame, ?_⟩
  rw [hsame.requests]
  decide +kernel

end YieldPlan
