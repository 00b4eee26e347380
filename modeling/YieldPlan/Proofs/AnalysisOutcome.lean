import YieldPlan.Proofs.LoopBounds
import YieldPlan.Proofs.LoweredPrograms
import YieldPlan.Proofs.ThreadSites

/-! The analysis of a lowered program fails only for what it asks of every program: an entrypoint,
no recursion, and code that one thread owns. Where it succeeds, all that it has recorded is of the
program, and reachability can be asked about any two operations. -/

namespace YieldPlan

/-- The procedure runs as a thread: it is the entrypoint, or some creation starts it. -/
def Program.StartsThread (prog : Program) (p : ProcId) : Prop :=
  prog.main = .ok p ∨ ∃ o < prog.ops.size, (prog.kind o).spawn? = some p

/-- While the region is open control comes to a return or to nesting that is too deep, or it never
comes to an end marker that closes the region. -/
def AtomicRegion.Unmatched (prog : Program) (start : OpId) : Prop :=
  (∃ r, Met prog start r ∧ (r.outcome.unmatched? prog).isSome) ∨
    ∀ r, Met prog start r → r.outcome.end? = none

/-- The failure names a precondition that the program does not meet: there is an entrypoint, no
recursion, each operation is of one thread, and regions are closed. -/
inductive Violates (prog : Program) : Failure → Prop where
  | missingMain {note} : prog.findProc? prog.entrypoint = none →
      Violates prog (.error ⟨.missingMain, note⟩)
  | recursion {p names note} : Relation.TransGen prog.Calls p p →
      Violates prog (.error ⟨.recursion names, note⟩)
  | duplicateOwner {o p q note} : o < prog.ops.size → p ≠ q →
      prog.StartsThread p → Relation.ReflTransGen prog.DirectCall p (prog.procOf o) →
      prog.StartsThread q → Relation.ReflTransGen prog.DirectCall q (prog.procOf o) →
      Violates prog (.error ⟨.duplicateOwner (prog.describe o) (prog.procName p)
        (prog.procName q), note⟩)
  | unmatchedAtomic {o note} : o < prog.ops.size → prog.kind o = .library .atomicBegin →
      AtomicRegion.Unmatched prog o → Violates prog (.error ⟨.unmatchedAtomic (prog.describe o), note⟩)

variable {prog : Program} {mayAlias : AliasOracle}

namespace Threads

structure InRange (prog : Program) (ts : Threads) : Prop where
  proc_lt : ∀ t < ts.size, (ts.get t).proc < prog.procs.size
  name : ∀ t < ts.size, (ts.get t).name = prog.procName (ts.get t).proc
  starts : ∀ t < ts.size, prog.StartsThread (ts.get t).proc
  distinct : ∀ t < ts.size, ∀ u < ts.size, (ts.get t).proc = (ts.get u).proc → t = u

theorem get_eq_getElem {ts : Threads} {t : ThreadId} (ht : t < ts.list.length) :
    ts.get t = ts.list[t] := by
  rw [get, List.getD_eq_getElem?_getD, List.getElem?_eq_getElem ht]
  rfl

theorem nodup_addSpawn {sites : List (ProcId × List OpId)} (h : (sites.map (·.1)).Nodup)
    (target : ProcId) (o : OpId) : ((addSpawn sites target o).map (·.1)).Nodup := by
  unfold addSpawn
  split
  · have hkeys : (sites.map fun s => if s.1 = target then (s.1, s.2 ++ [o]) else s).map (·.1) =
        sites.map (·.1) := by
      rw [List.map_map]
      apply List.map_congr_left
      intro s _
      simp only [Function.comp_apply]
      split <;> rfl
    rw [hkeys]
    exact h
  · next hany =>
    rw [List.map_append, List.nodup_append]
    refine ⟨h, List.nodup_singleton _, ?_⟩
    rintro p hp q hq rfl
    obtain ⟨s, hs, rfl⟩ := List.mem_map.mp hp
    exact hany (List.any_eq_true.mpr ⟨s, hs, decide_eq_true (List.mem_singleton.mp hq)⟩)

theorem nodup_spawnSites (live : List ProcId) (main : ProcId) :
    ((spawnSites prog live main).map (·.1)).Nodup := by
  refine List.foldlRecOn (motive := fun sites => (List.map Prod.fst sites).Nodup) _ _
    (List.nodup_singleton main) fun sites h o _ => ?_
  split
  · split
    · exact nodup_addSpawn h _ _
    · exact h
  · exact h

end Threads

theorem Program.StartsThread.lt (htargets : ∀ o < prog.ops.size, ∀ f,
    (prog.kind o).callEdge? = some f → f < prog.procs.size) {p : ProcId}
    (h : prog.StartsThread p) : p < prog.procs.size := by
  rcases h with hmain | ⟨o, ho, hspawn⟩
  · exact main_ok hmain
  · exact htargets o ho _ (callEdge?_of_spawn? hspawn)

theorem Program.threads_start {g : CallGraph} {order : List ProcId} {r : Reachability}
    {ts : Threads} (h : (prog.threads g order r).result = .ok ts) {t : ThreadId}
    (ht : t < ts.size) : prog.StartsThread (ts.get t).proc ∧
      (ts.get t).name = prog.procName (ts.get t).proc := by
  obtain ⟨main, hmain, hlist⟩ := threads_ok h
  have hget : ts.get t ∈ ts.list := by
    rw [Threads.get_eq_getElem ht]
    exact List.getElem_mem ht
  rw [hlist] at hget
  obtain ⟨s, hs, he⟩ := List.mem_map.mp hget
  rw [← he]
  refine ⟨?_, rfl⟩
  rcases Threads.mem_spawnSites.mp (List.mem_map_of_mem hs) with heq | ⟨o, ho, hspawn, -⟩
  · exact .inl (by rw [heq, hmain])
  · exact .inr ⟨o, ho, hspawn⟩

theorem Program.threads_inRange {g : CallGraph} {order : List ProcId} {r : Reachability}
    {ts : Threads} (hr : prog.Resolved prog.procs.size)
    (h : (prog.threads g order r).result = .ok ts) : ts.InRange prog := by
  refine ⟨fun t ht => (threads_start h ht).1.lt hr.target, fun t ht => (threads_start h ht).2,
    fun t ht => (threads_start h ht).1, fun t ht u hu heq => ?_⟩
  obtain ⟨main, -, hlist⟩ := threads_ok h
  have hnodup : (ts.list.map (·.proc)).Nodup := by
    rw [hlist, List.map_map]
    exact Threads.nodup_spawnSites _ _
  have hlen : (ts.list.map (·.proc)).length = ts.size := List.length_map _
  rw [Threads.get_eq_getElem ht, Threads.get_eq_getElem hu] at heq
  refine (@List.Nodup.getElem_inj_iff _ _ hnodup t (by rwa [hlen]) u (by rwa [hlen])).mp ?_
  rw [List.getElem_map, List.getElem_map]
  exact heq

/-- A thread that starts with the procedure may come to the live point, directly or through calls. -/
def Program.Executes (prog : Program) (root : ProcId) (p : Point) : Prop :=
  p.Live prog ∧ Relation.ReflTransGen prog.DirectCall root (prog.block p.block).proc

theorem Program.Shaped.executes_firstPoint (h : prog.Shaped) {p : ProcId}
    (hp : p < prog.procs.size) : prog.Executes p (prog.firstPoint p) := by
  obtain ⟨hlive, hproc⟩ := h.firstPoint_ok hp
  exact ⟨hlive, hproc.symm ▸ .refl⟩

namespace AliasSets

def InRange (prog : Program) (s : AliasSets) : Prop :=
  ∀ set ∈ s.sets, ∀ o ∈ set, o < prog.ops.size

theorem InRange.insert {s : AliasSets} (h : s.InRange prog) {o : OpId} (ho : o < prog.ops.size) :
    (s.insert prog mayAlias o).InRange prog := by
  unfold AliasSets.insert
  split
  · exact h
  · intro set hset x hx
    rcases List.mem_append.mp hset with hset | hset
    · exact h set (List.mem_filter.mp hset).1 x hx
    · rw [List.mem_singleton.mp hset] at hx
      rcases List.mem_append.mp ((mem_sortBy _ _ _).mp hx) with hx | hx
      · obtain ⟨old, hold, hx⟩ := List.mem_flatten.mp hx
        exact h old (List.mem_filter.mp hold).1 x hx
      · exact List.mem_singleton.mp hx ▸ ho

end AliasSets

namespace Ownership

/-- Threads own operations that they execute, and return sites follow calls. -/
structure InRange (prog : Program) (ts : Threads) (own : Ownership) : Prop where
  owner : ∀ o t, own.owner? o = some t → o < prog.ops.size ∧ t < ts.size ∧
    Relation.ReflTransGen prog.DirectCall (ts.get t).proc (prog.procOf o)
  site : ∀ p, ∀ q ∈ own.sites p, ∃ c < prog.ops.size, prog.kind c = .call p ∧ q = prog.pointAfter c
  aliasSets : ∀ t sets, own.aliasSets.get? t = some sets → sets.InRange prog

variable {r : Reachability} {ts : Threads} {t : ThreadId} {own : Ownership}

theorem InRange.claim (h : own.InRange prog ts) {o : OpId} (ho : o < prog.ops.size)
    (ht : t < ts.size)
    (hruns : Relation.ReflTransGen prog.DirectCall (ts.get t).proc (prog.procOf o)) :
    (own.claim prog mayAlias t o).InRange prog ts where
  owner x u hx := by
    simp only [owner?, Ownership.claim, Table.get?_put] at hx
    split at hx
    · next heq =>
      cases hx
      exact heq ▸ ⟨ho, ht, hruns⟩
    · exact h.owner x u hx
  site := h.site
  aliasSets u sets hu := by
    simp only [Ownership.claim, Table.get?_put] at hu
    split at hu
    · cases hu
      refine AliasSets.InRange.insert ?_ ho
      cases hold : own.aliasSets.get? t with
      | none => simp [AliasSets.InRange]
      | some old => exact h.aliasSets t old hold
    · exact h.aliasSets u sets hu

theorem InRange.addSite (h : own.InRange prog ts) {o : OpId} {f : ProcId} (ho : o < prog.ops.size)
    (hk : prog.kind o = .call f) : (own.addSite f (prog.pointAfter o)).InRange prog ts where
  owner := h.owner
  site g q hq := by
    rw [sites_addSite] at hq
    split at hq
    · next heq =>
      subst heq
      split at hq
      · exact h.site g q hq
      · rcases List.mem_append.mp hq with hq | hq
        · exact h.site g q hq
        · exact ⟨o, ho, hk, List.mem_singleton.mp hq⟩
    · exact h.site g q hq
  aliasSets := h.aliasSets

theorem not_isTerminator_of_call {o : OpId} {f : ProcId} (hk : prog.kind o = .call f) :
    ¬ (prog.kind o).isTerminator := by
  simp [hk, OpKind.isTerminator]

theorem processor_closed (hs : prog.Shaped) (hr : prog.Resolved prog.procs.size)
    (hts : ts.InRange prog) (ht : t < ts.size) :
    (processor prog r ts mayAlias t).Closed prog (prog.Executes (ts.get t).proc) (InRange prog ts)
      (Violates prog) where
  valid h := Program.valid_of_live h.1
  branch := by
    rintro p b ⟨hlive, hruns⟩ hb
    obtain ⟨hlt, hproc⟩ := hs.succ _ (Program.live_ops hlive).1 b hb
    exact ⟨hs.live_entry hlt, hproc ▸ hruns⟩
  visit := by
    rintro p o a own ⟨-, hruns⟩ hmem hown
    obtain ⟨ho, hblock⟩ := hs.mem_ops.mp hmem
    rw [← hblock] at hruns
    refine .bind_ok (t := own) rfl ?_
    cases howner : own.owner? o with
    | none => exact .of_ok rfl ⟨hown.claim ho ht hruns, Step.within_continue _ _⟩
    | some first =>
      by_cases hf : first = t
      · simp only [hf, ne_eq, not_true_eq_false, ↓reduceIte]
        exact .of_ok rfl ⟨hown, Step.within_continue _ _⟩
      · simp only [hf, ne_eq, not_false_eq_true, ↓reduceIte]
        obtain ⟨-, hfirst, hfirstRuns⟩ := hown.owner o first howner
        show Violates prog (.error ⟨.duplicateOwner (prog.describe o) (ts.get first).name
          (ts.get t).name, none⟩)
        rw [hts.name first hfirst, hts.name t ht]
        exact .duplicateOwner ho (fun heq => hf (hts.distinct first hfirst t ht heq))
          (hts.starts first hfirst) hfirstRuns (hts.starts t ht) hruns
  afterCall := by
    rintro p o f own ⟨-, hruns⟩ hmem hk hown
    obtain ⟨ho, hblock⟩ := hs.mem_ops.mp hmem
    rw [← hblock] at hruns
    obtain ⟨-, -, -, hlt, hproc, -⟩ :=
      hs.entry_ok (hr.target o ho f (by simp [hk, OpKind.callEdge?]))
    have hentry : prog.Executes (ts.get t).proc (Point.entry (prog.entryBlock f)) := by
      refine ⟨hs.live_entry hlt, ?_⟩
      show Relation.ReflTransGen _ _ (prog.block (prog.entryBlock f)).proc
      rw [hproc]
      exact hruns.tail ⟨o, ho, rfl, by simp [hk, OpKind.callee?]⟩
    have hafter : prog.Executes (ts.get t).proc (prog.pointAfter o) :=
      ⟨hs.live_after ho (not_isTerminator_of_call hk), hruns⟩
    refine .of_ok rfl ⟨hown.addSite ho hk, ?_⟩
    intro q hq
    split at hq
    · rcases List.mem_cons.mp hq with rfl | hq
      · exact hentry
      · exact List.mem_singleton.mp hq ▸ hafter
    · exact List.mem_singleton.mp hq ▸ hentry
  afterReturn := fun hown => .of_ok rfl ⟨hown, by simp⟩
  revisit := fun _ hown => .of_ok rfl hown

theorem addThread_ends (hs : prog.Shaped) (hr : prog.Resolved prog.procs.size)
    (hts : ts.InRange prog) (ht : t < ts.size)
    (hown : own.InRange prog ts) :
    (own.addThread prog r ts mayAlias t).Ends (InRange prog ts) (Violates prog) := by
  have hwalk : (prog.walk (processor prog r ts mayAlias t) (prog.firstPoint (ts.get t).proc)
      .pre).Ends { state := own } (fun _ w => w.state.InRange prog ts ∧
        ∀ p a, w.areas.get? p = some a → prog.Executes (ts.get t).proc p) (Violates prog) :=
    Walk.walk_ends (Walk.Closed.safe (processor_closed hs hr hts ht)) rfl ⟨hown, by simp⟩
      (hs.executes_firstPoint (hts.proc_lt t ht))
  unfold addThread
  unfold Action.Ends at hwalk
  split
  · next hw =>
    rw [hw] at hwalk
    exact hwalk.1
  · next hw =>
    rw [hw] at hwalk
    exact hwalk

theorem addThreads_ends (hs : prog.Shaped) (hr : prog.Resolved prog.procs.size)
    (hts : ts.InRange prog) {ids : List ThreadId}
    (hids : ∀ t ∈ ids, t < ts.size) (hown : own.InRange prog ts) :
    (addThreads prog r ts mayAlias own ids).Ends (InRange prog ts) (Violates prog) := by
  induction ids generalizing own with
  | nil => exact .of_ok rfl hown
  | cons t ids ih =>
    obtain ⟨ht, hids⟩ := List.forall_mem_cons.mp hids
    exact .bind (addThread_ends hs hr hts ht hown) fun own' _ hown' => ih hids hown'

end Ownership

namespace LockSets

/-- Blocks that are still to be handed on have a lock set. -/
def Flow.Known (f : Flow) : Prop := ∀ b ∈ f.pending, ∃ s, f.starts.get? b = some s

variable {release : Table ProcId Release} {f : Flow}

theorem Flow.Known.into (h : f.Known) (s : LockSet) (b : BlockId) : (f.into s b).Known := by
  rcases into_cases s f b with ⟨heq, -⟩ | ⟨new, hstarts, hpending, -, -⟩
  · rwa [heq]
  · intro c hc
    rw [hstarts, Table.get?_put]
    split
    · exact ⟨new, rfl⟩
    · next hne =>
      rw [hpending] at hc
      split at hc
      · exact h c hc
      · exact h c ((List.mem_append.mp hc).resolve_right fun hcb => hne (List.mem_singleton.mp hcb))

theorem Flow.Known.step (h : f.Known) : (f.step prog release).Known := by
  unfold Flow.step
  split
  · exact h
  · next b rest hpending =>
    have hrest : Flow.Known { f with pending := rest } :=
      fun c hc => h c (by rw [hpending]; exact List.mem_cons_of_mem _ hc)
    dsimp only
    generalize (prog.block b).succs = succs
    generalize { f with pending := rest } = f' at hrest
    induction succs generalizing f' with
    | nil => exact hrest
    | cons c succs ih => exact ih _ (hrest.into _ c)

end LockSets

/-- The scan of a region follows branches from one live point to others. -/
theorem AtomicRegion.live_of_reaches (hs : prog.Shaped) {maxDepth : Nat} {u v : Position}
    (h : Relation.ReflTransGen (fun x y => y ∈ next prog maxDepth x) u v) (hu : u.1.Live prog) :
    v.1.Live prog := by
  induction h with
  | refl => exact hu
  | tail _ hlast ih =>
    obtain ⟨-, -, s, hmem, rfl⟩ := mem_next.mp hlast
    exact hs.live_entry (hs.succ _ (Program.live_ops ih).1 s hmem).1

/-- What the analysis works on and records is of its program, and every question about reachability
has an answer. -/
structure Analysis.InRange (cx : Analysis) : Prop where
  program : cx.prog.Shaped
  targets : ∀ o < cx.prog.ops.size, ∀ f, (cx.prog.kind o).callEdge? = some f →
    f < cx.prog.procs.size
  queries : ∀ a < cx.prog.ops.size, ∀ b < cx.prog.ops.size, ∃ answer,
    cx.reach.query cx.prog a b = .ok answer
  threads : cx.threads.InRange cx.prog
  ownership : cx.ownership.InRange cx.prog cx.threads
  owners : ∀ o, cx.conflicts.owner? o = cx.ownership.owner? o
  conflicts : ∀ o, ∀ x ∈ cx.conflicts.conflictsWith o, x < cx.prog.ops.size
  locks : ∀ release p entry fuel,
    (LockSets.Flow.run cx.prog release fuel (.initial cx.prog p entry)).Known
  regions : ∀ o < cx.prog.ops.size, cx.prog.kind o = .library .atomicBegin → ∀ maxDepth s,
    Relation.ReflTransGen (fun x y => y ∈ AtomicRegion.next cx.prog maxDepth x)
      (cx.prog.pointAfter o, 0) s → s.1.Live cx.prog

theorem Program.main_ends : prog.main.Ends (fun _ => True) (Violates prog) := by
  unfold Program.main
  split
  · exact .of_ok rfl trivial
  · next hnone => exact Violates.missingMain hnone

theorem Program.checkWellFormed_ends (hs : prog.Shaped) (hv : prog.validate = .ok ())
    (hr : prog.Resolved prog.procs.size) :
    prog.checkWellFormed.result.Ends (fun _ => ∃ main, prog.main = .ok main) (Violates prog) := by
  simp only [checkWellFormed, Traced.result_bind]
  refine .bind_ok hv (.bind main_ends fun main hmain _ => ?_)
  exact .bind_ok (hs.callGraph_ok hr.target) (.of_ok rfl ⟨main, hmain⟩)

theorem CallGraph.postOrder_ends (hs : prog.Shaped) (hr : prog.Resolved prog.procs.size) :
    (prog.calls.postOrder prog).Ends
      (fun order => (∀ p, ¬ Relation.TransGen prog.Calls p p) ∧
        ∀ p, p ∈ order ↔ p < prog.procs.size) (Violates prog) := by
  by_cases hcycle : ∃ p, Relation.TransGen prog.Calls p p
  · obtain ⟨p, hp⟩ := hcycle
    cases horder : prog.calls.postOrder prog with
    | ok order => exact absurd hp (acyclic_of_postOrder hs.toCoherent hr.target horder p)
    | error e =>
      obtain ⟨members, -, -, rfl⟩ := order_fails_at horder
      exact Violates.recursion hp
  · have hacyclic : ∀ p, ¬ Relation.TransGen prog.Calls p p := fun p hp => hcycle ⟨p, hp⟩
    obtain ⟨order, horder, -, hmem, -⟩ := postOrder_ok hr.target hacyclic
    exact .of_ok horder ⟨hacyclic, hmem⟩

theorem Program.threads_ends {order : List ProcId} {r : Reachability}
    (hr : prog.Resolved prog.procs.size) (hmain : ∃ main, prog.main = .ok main)
    (horder : ∀ p, p ∈ order ↔ p < prog.procs.size) :
    (prog.threads prog.calls order r).result.Ends (Threads.InRange prog) (Violates prog) := by
  obtain ⟨main, hmain⟩ := hmain
  have hall : order.all (· < prog.calls.size) := by
    rw [List.all_eq_true]
    intro p hp
    exact decide_eq_true ((horder p).mp hp)
  have hok : ∃ ts, (prog.threads prog.calls order r).result = .ok ts := by
    simp only [Program.threads, Traced.result_bind, Traced.result_ofChecked, Traced.result_emit]
    refine ⟨_, Checked.bind_ok.mpr ⟨main, hmain, Checked.bind_ok.mpr ⟨(), ?_, rfl⟩⟩⟩
    rw [if_pos hall]
  obtain ⟨ts, hts⟩ := hok
  exact .of_ok hts (threads_inRange hr hts)

theorem Program.ownership_ends {r : Reachability} {ts : Threads} (hs : prog.Shaped)
    (hr : prog.Resolved prog.procs.size) (hts : ts.InRange prog) :
    (prog.ownership r ts mayAlias).result.Ends (Ownership.InRange prog ts) (Violates prog) := by
  simp only [Program.ownership, Traced.result_bind]
  have hempty : Ownership.InRange prog ts {} :=
    ⟨fun o t h => by simp [Ownership.owner?] at h, fun p q h => by simp [Ownership.sites] at h,
      fun t sets h => by simp at h⟩
  refine .bind (Ownership.addThreads_ends hs hr hts
    (fun t ht => List.mem_range.mp ht) hempty) fun own _ hown => ?_
  rw [hr.options]
  exact .of_ok rfl hown

theorem Program.lockSets_ok {order : List ProcId} (horder : ∀ p, p ∈ order ↔ p < prog.procs.size) :
    ∃ locks, prog.lockSets order = .ok locks := by
  have hall : order.all (· < prog.procs.size) := by
    rw [List.all_eq_true]
    intro p hp
    exact decide_eq_true ((horder p).mp hp)
  exact ⟨_, if_pos hall⟩

theorem Conflicts.mem_find {ts : Threads} {own : Ownership} {locks : LockSets} {o x : OpId}
    {t : ThreadId} (hown : own.InRange prog ts) (h : x ∈ find prog ts own locks mayAlias o t) :
    x < prog.ops.size := by
  obtain ⟨u, -, hu⟩ := List.mem_flatMap.mp (mem_sortNats.mp h)
  unfold inThread at hu
  split at hu
  · next sets hsets =>
    obtain ⟨set, hset, hx⟩ := List.mem_flatten.mp (List.mem_filter.mp hu).1
    exact hown.aliasSets u sets hsets set (List.mem_filter.mp hset).1 x hx
  · cases hu

theorem Program.conflicts_inRange {ts : Threads} {own : Ownership} (locks : LockSets)
    (hown : own.InRange prog ts) :
    ∃ c, (prog.conflicts ts own locks mayAlias).result = .ok c ∧
      (∀ o, c.owner? o = own.owner? o) ∧ ∀ o, ∀ x ∈ c.conflictsWith o, x < prog.ops.size := by
  obtain ⟨c, hc⟩ : ∃ c, (prog.conflicts ts own locks mayAlias).result = .ok c := ⟨_, rfl⟩
  obtain ⟨howners, htable⟩ := conflicts_ok hc
  refine ⟨c, hc, howners, fun o x hx => ?_⟩
  unfold Conflicts.conflictsWith at hx
  cases hget : c.table.get? o with
  | none =>
    rw [hget] at hx
    cases hx
  | some found =>
    rw [hget] at hx
    obtain ⟨-, t, rfl⟩ := htable o found hget
    exact Conflicts.mem_find hown hx

/-- The analysis fails on a precondition or records what is of the program. -/
theorem Program.analyze_ends (hs : prog.Shaped) (hv : prog.validate = .ok ())
    (hr : prog.Resolved prog.procs.size) (hsize : prog.ops.size ≤ BitMatrix.maxRows) :
    (prog.analyze mayAlias).result.Ends (fun cx => cx.prog = prog ∧ cx.InRange)
      (Violates prog) := by
  simp only [Program.analyze, Traced.result_bind]
  refine .bind (checkWellFormed_ends hs hv hr) fun _ _ hmain => ?_
  refine .bind_ok (hs.callGraph_ok hr.target) ?_
  refine .bind (CallGraph.postOrder_ends hs hr) ?_
  rintro order horder ⟨hacyclic, hmem⟩
  obtain ⟨order', reach, horder', hreach, hat, hblock, -⟩ :=
    Reachability.reachability_ok hs hr.target hacyclic hsize
  obtain rfl := Except.ok.inj (horder'.symm.trans horder)
  refine .bind_ok hreach ?_
  refine .bind (threads_ends hr hmain hmem) fun ts _ hts => ?_
  refine .bind (ownership_ends hs hr hts) fun own _ hown => ?_
  obtain ⟨locks, hlocks⟩ := lockSets_ok hmem
  refine .bind_ok hlocks ?_
  obtain ⟨conflicts, hconflicts, howners, hrange⟩ := conflicts_inRange locks hown
  refine .bind_ok hconflicts ?_
  refine .bind_ok rfl (.of_ok rfl ⟨rfl, hs, hr.target, ?_, hts, hown, howners, hrange, ?_, ?_⟩)
  · intro a ha b hb
    obtain ⟨answer, hanswer, -⟩ := Reachability.query_ok hat.ops ⟨ha, hblock _ (hs.blockOf_lt ha)⟩
      ⟨hb, hblock _ (hs.blockOf_lt hb)⟩
    exact ⟨answer, hanswer⟩
  · intro release p entry fuel
    apply LockSets.Flow.run_keeps fun f hf => hf.step
    intro b hb
    exact ⟨entry, LockSets.Flow.get?_initial.mpr ⟨List.mem_singleton.mp hb, rfl⟩⟩
  · intro o ho hk maxDepth s hreach
    exact AtomicRegion.live_of_reaches hs hreach
      (hs.live_after ho (by simp [hk, OpKind.isTerminator]))

end YieldPlan
