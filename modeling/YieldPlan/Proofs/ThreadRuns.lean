import YieldPlan.Proofs.AnalysisStages
import YieldPlan.Proofs.OwnedCode
import YieldPlan.Proofs.PhaseCoverage

/-! A run of a thread keeps the calls that it is in, so that every return leads back to its own
call. The tracker keeps no calls and lets a return lead to all recorded sites. Its paths still cover
the runs: a procedure that a run returns from may return, so the walk that records the sites went
past the call, and without recursion no run returns from the procedure of its thread to a call. -/

namespace YieldPlan

namespace Program

variable (prog : Program)

/-- A path within one activation of a procedure. Calls are stepped over if the callee can run from
its entry to a return. -/
inductive Level : OpId → OpId → Prop where
  | refl {o} : Level o o
  | next {a o o'} : Level a o → ¬ (prog.kind o).isTerminator → (prog.kind o).callee? = none →
      prog.Follows o o' → Level a o'
  | skip {a o o' f e r} : Level a o → (prog.kind o).callee? = some f → prog.entryOp? f = some e →
      Level e r → prog.kind r = .terminator .ret → prog.Follows o o' → Level a o'
  | branch {a o s o'} : Level a o → prog.kind o = .terminator .branch →
      prog.Succ (prog.blockOf o) s → prog.opAt? s 0 = some o' → Level a o'

variable {prog}

theorem Level.trans {a b c : OpId} (h : prog.Level a b) (k : prog.Level b c) : prog.Level a c := by
  induction k with
  | refl => exact h
  | next _ ht hc hf ih => exact .next (ih h) ht hc hf
  | skip _ hc he hr hk hf ih => exact .skip (ih h) hc he hr hk hf
  | branch _ hk hs ho ih => exact .branch (ih h) hk hs ho

namespace Shaped

variable (h : prog.Shaped)

include h

theorem entryOp_ok {f : ProcId} {e : OpId} (he : prog.entryOp? f = some e) :
    f < prog.procs.size ∧ e < prog.ops.size ∧ prog.procOf e = f := by
  have hf : f < prog.procs.size := by
    by_contra hn
    simp [entryOp?, entryBlock?, proc?, Nat.le_of_not_lt hn] at he
  obtain ⟨-, -, -, hlt, hproc, hentry⟩ := h.entry_ok hf
  rw [hentry] at he
  obtain ⟨hlte, hblock, -⟩ := h.opAt?_iff.mp (h.opAt?_firstOp hlt)
  cases he
  exact ⟨hf, hlte, by rw [procOf, hblock, hproc]⟩

theorem procOf_level {a o : OpId} (ha : a < prog.ops.size) (hl : prog.Level a o) :
    o < prog.ops.size ∧ prog.procOf o = prog.procOf a := by
  have hnext : ∀ {x y}, prog.Follows x y → y < prog.ops.size ∧ prog.procOf y = prog.procOf x := by
    intro x y hf
    obtain ⟨hy, hb, -⟩ := h.follows_iff.mp hf
    exact ⟨hy, by rw [procOf, procOf, hb]⟩
  induction hl with
  | refl => exact ⟨ha, rfl⟩
  | next _ _ _ hf ih => exact ⟨(hnext hf).1, (hnext hf).2.trans (ih ha).2⟩
  | skip _ _ _ _ _ hf ih => exact ⟨(hnext hf).1, (hnext hf).2.trans (ih ha).2⟩
  | branch _ _ hs ho ih =>
    obtain ⟨hx, hb, -⟩ := h.opAt?_iff.mp ho
    have hsucc := h.succ _ (h.blockOf_lt (ih ha).1) _ hs
    exact ⟨hx, by rw [procOf, hb, hsucc.2]; exact (ih ha).2⟩

theorem advance_of_level {returns : ProcId → Prop}
    (hr : ∀ f < prog.procs.size, Reachability.Returns prog returns f → returns f) {a o : OpId}
    (hl : prog.Level a o) : Relation.ReflTransGen (prog.Advance returns) a o ∧
      ∀ f, prog.entryOp? f = some a → prog.kind o = .terminator .ret → returns f := by
  have hret : ∀ {a o}, prog.Level a o → Relation.ReflTransGen (prog.Advance returns) a o →
      ∀ f, prog.entryOp? f = some a → prog.kind o = .terminator .ret → returns f := by
    intro a o hl hpath f he hk
    obtain ⟨hf, ha, hproc⟩ := h.entryOp_ok he
    obtain ⟨ho, hop⟩ := h.procOf_level ha hl
    have hflow : Relation.ReflTransGen (prog.Flow returns) a o :=
      Relation.ReflTransGen.mono (fun _ _ => Advance.flow) _ _ hpath
    exact hr f hf ⟨o, ho, hop.trans hproc, hk, a, he,
      Relation.reflTransGen_iff_eq_or_transGen.mp hflow⟩
  have hpath : Relation.ReflTransGen (prog.Advance returns) a o := by
    induction hl with
    | refl => exact .refl
    | next _ ht hc hf ih => exact ih.tail (.next ht hc hf)
    | skip _ hc he hlevel hk hf ih ihr =>
      exact ih.tail (.resume hc (hret hlevel ihr _ he hk) hf)
    | branch _ hk hs ho ih => exact ih.tail (.branch hk hs ho)
  exact ⟨hpath, hret hl hpath⟩

end Shaped

def Hop (prog : Program) (b s : BlockId) : Prop := prog.hop? b = some s

theorem hop_ok {b s : BlockId} (h : prog.Hop b s) :
    ∃ o, prog.opAt? b 0 = some o ∧ prog.kind o = .terminator .branch ∧
      (prog.block b).succs = [s] := by
  unfold Hop hop? at h
  split at h
  · next o s' hops hsuccs =>
    split at h
    · next hterm =>
      cases h
      refine ⟨o, by rw [opAt?, hops]; rfl, ?_, hsuccs⟩
      rw [terminator?, hops] at hterm
      cases hk : prog.kind o <;> simp_all
    · cases h
  · cases h

theorem skipHops_hops (fuel : Nat) (seen : List BlockId) (b : BlockId) :
    Relation.ReflTransGen prog.Hop b (prog.skipHops fuel seen b) := by
  induction fuel generalizing seen b with
  | zero => exact .refl
  | succ fuel ih =>
    rw [skipHops]
    split
    · exact .refl
    · split
      · next s hs => exact .head hs (ih _ s)
      · exact .refl

end Program

namespace AtomicRegion

variable {prog : Program}

theorem runOps_closed {maxDepth depth : Nat} {ops : List OpId} {o : OpId}
    (h : (runOps prog maxDepth depth ops).outcome = .closed o) :
    prog.kind o = .library .atomicEnd := by
  induction ops generalizing depth with
  | nil => cases h
  | cons x rest ih =>
    unfold runOps at h
    split at h
    · split at h
      · cases h
      · exact ih h
    · split at h
      · cases h
        assumption
      · exact ih h
    · cases h
    · exact ih h
    · exact ih h

theorem mem_distinct {x : OpId} {seen xs : List OpId} (h : x ∈ distinct seen xs) : x ∈ xs := by
  induction xs generalizing seen with
  | nil => cases h
  | cons y xs ih =>
    rw [distinct] at h
    split at h
    · exact List.mem_cons_of_mem _ (ih h)
    · rcases List.mem_cons.mp h with rfl | h
      · exact List.mem_cons_self
      · exact List.mem_cons_of_mem _ (ih h)

theorem Outcome.end?_eq_some {out : Outcome} {e : OpId} : out.end? = some e ↔ out = .closed e := by
  cases out <;> simp [end?]

def ofRuns (prog : Program) (m : Movability) (start : OpId) : AtomicRegion :=
  let ops := sortNats ((runs prog start).flatMap (·.inside))
  let ends := distinct [] ((runs prog start).filterMap fun r => r.outcome.end?)
  { start, kind := Mover.joinAll (ops.map (m.effect prog)), ends,
    exits := ends.map prog.pointAfter, ops }

theorem scan_parts {m : Movability} {start : OpId} {region : AtomicRegion}
    (h : scan prog m start = .ok region) :
    (∀ r ∈ runs prog start, r.outcome.unmatched? prog = none) ∧
      region = ofRuns prog m start ∧ region.ends ≠ [] := by
  obtain ⟨_, -, h⟩ := Checked.bind_ok.mp h
  dsimp only at h
  split at h
  · cases h
  · next hnone =>
    split at h
    · cases h
    · next hends =>
      cases h
      exact ⟨List.findSome?_eq_none_iff.mp hnone, rfl, hends⟩

theorem distinct_eq_nil {l : List OpId} (h : distinct [] l = []) : l = [] := by
  cases l with
  | nil => rfl
  | cons x xs => simp [distinct] at h

theorem scan_fails {m : Movability} {start : OpId} (ho : start < prog.ops.size) {e : Failure}
    (h : scan prog m start = .error e) :
    (∃ note, e = .error ⟨.unmatchedAtomic (prog.describe start), note⟩) ∧
      ((∃ r ∈ runs prog start, (r.outcome.unmatched? prog).isSome) ∨
        ∀ r ∈ runs prog start, r.outcome.end? = none) := by
  have hop : prog.op? start = some (prog.op start) := by simp [Program.op, Program.op?, ho]
  unfold scan at h
  rw [hop] at h
  simp only [Checked.index_some, Checked.ok_bind] at h
  split at h
  · next note hnote =>
    cases h
    obtain ⟨r, hr, hrnote⟩ := List.exists_of_findSome?_eq_some hnote
    refine ⟨⟨note, rfl⟩, .inl ⟨r, hr, ?_⟩⟩
    rw [hrnote]
    rfl
  · split at h
    · next hends =>
      cases h
      exact ⟨⟨none, rfl⟩, .inr (List.filterMap_eq_nil_iff.mp (distinct_eq_nil hends))⟩
    · cases h

theorem closed_of_mem_ends {m : Movability} {start e : OpId} {region : AtomicRegion}
    (h : scan prog m start = .ok region) (he : e ∈ region.ends) :
    ∃ r ∈ runs prog start, r.outcome = .closed e := by
  rw [(scan_parts h).2.1] at he
  obtain ⟨r, hr, hend⟩ := List.mem_filterMap.mp (mem_distinct he)
  exact ⟨r, hr, Outcome.end?_eq_some.mp hend⟩

theorem scan_ok {m : Movability} {start : OpId} {region : AtomicRegion}
    (h : scan prog m start = .ok region) :
    (∀ e ∈ region.ends, prog.kind e = .library .atomicEnd) ∧
      region.exits = region.ends.map prog.pointAfter := by
  constructor
  · intro e he
    obtain ⟨r, hr, hclosed⟩ := closed_of_mem_ends h he
    obtain ⟨s, -, rfl⟩ := List.mem_map.mp hr
    exact runOps_closed hclosed
  · rw [(scan_parts h).2.1]
    rfl

theorem mem_zip_exits {m : Movability} {start e : OpId} {exit : Point} {region : AtomicRegion}
    (h : scan prog m start = .ok region) :
    (e, exit) ∈ region.ends.zip region.exits ↔ e ∈ region.ends ∧ exit = prog.pointAfter e := by
  have hzip := List.zip_map' (l := region.ends) (f := id) (g := prog.pointAfter)
  rw [List.map_id] at hzip
  rw [(scan_ok h).2, hzip, List.mem_map]
  constructor
  · rintro ⟨x, hx, heq⟩
    cases heq
    exact ⟨hx, rfl⟩
  · rintro ⟨he, rfl⟩
    exact ⟨e, he, rfl⟩

end AtomicRegion

namespace PhaseTracker

def Scanned (cx : Analysis) (pt : PhaseTracker) : Prop :=
  ∀ o region, pt.regions.get? o = some region →
    AtomicRegion.scan cx.prog cx.movability o = .ok region

variable {cx : Analysis} {pt pt' : PhaseTracker} {t : ThreadId}

theorem addRegions_scanned {os : List OpId} (h : (addRegions cx pt os).result = .ok pt')
    (hp : Scanned cx pt) : Scanned cx pt' := by
  induction os generalizing pt with
  | nil =>
    cases h
    exact hp
  | cons o os ih =>
    unfold addRegions at h
    split at h
    · exact ih h hp
    · rw [Traced.result_bind] at h
      obtain ⟨region, hscan, h⟩ := Checked.bind_ok.mp h
      rw [scanRegion_result] at hscan
      refine ih h fun x found hx => ?_
      rw [Table.get?_put] at hx
      split at hx
      · next hxo =>
        cases hx
        rw [hxo]
        exact hscan
      · exact hp x found hx

theorem Scanned.congr (h : Scanned cx pt) (hsame : SameSetup pt pt') : Scanned cx pt' := by
  rw [Scanned, hsame.regions]
  exact h

theorem run_scanned {n : Nat} (h : (run cx pt).result = .ok (pt', n)) (hp : Scanned cx pt) :
    Scanned cx pt' := by
  obtain ⟨pt₁, h₁, h₂⟩ := run_cases h
  exact (addRegions_scanned h₁ hp).congr (addThreads_ok h₂).1

theorem scanned_fresh (mode : Mode) (checks : Bool) :
    Scanned cx { mode, conflictChecks := checks } := by
  intro o region ho
  cases ho

theorem scanned_of_run {mode : Mode} {checks : Bool} {n : Nat}
    (h : (run cx { mode, conflictChecks := checks }).result = .ok (pt', n)) : Scanned cx pt' :=
  run_scanned h (scanned_fresh mode checks)

theorem Scanned.regionAt (h : Scanned cx pt) (o : OpId) :
    regionAt cx pt o = AtomicRegion.scan cx.prog cx.movability o := by
  unfold PhaseTracker.regionAt
  split
  · next region hr => exact (h o region hr).symm
  · rfl

theorem Scanned.requestOps_cases (h : Scanned cx pt) {o x : OpId} (hx : x ∈ requestOps cx pt o) :
    (opens? cx pt o = none ∧ x = o) ∨ cx.prog.kind x = .library .atomicEnd := by
  unfold requestOps at hx
  cases hopen : opens? cx pt o with
  | none =>
    rw [hopen, List.mem_singleton] at hx
    exact .inl ⟨rfl, hx⟩
  | some region =>
    rw [hopen] at hx
    obtain ⟨-, hat⟩ := opens?_ok hopen
    rw [h.regionAt] at hat
    exact .inr ((AtomicRegion.scan_ok hat).1 x hx)

theorem Finished.area {points : List Point} {areas : Table Point Area} {s : Tracking}
    (h : Finished cx pt t points areas s) {p : Point} (hp : p ∈ points) {o : OpId}
    (ho : p.op? cx.prog = some o) : ∃ a, s.opAreas.get? o = some a := by
  obtain ⟨a, ops, -, -, -, -, ha, hops, -⟩ := h.ran p hp
  obtain ⟨rest, rfl⟩ := List.head?_eq_some_iff.mp ((Program.ops?_head? hops).trans ho)
  obtain ⟨b, hb, -⟩ := (h.ahead hp hops ha (Area.le_refl a)).visit.area
  exact ⟨b, hb⟩

/-- A run of a thread: what it has executed, the operation that comes next, and the calls that it is
in. A region is executed as a whole, up to an end marker that its begin marker leads to. Runs stop
where a call returns that is written inside some region and was not executed as part of it. -/
inductive Run (cx : Analysis) (pt : PhaseTracker) (t : ThreadId) :
    List Visit → OpId → List OpId → Prop where
  | start {o} : cx.prog.entryOp? (cx.threads.get t).proc = some o → Run cx pt t [] o []
  | pass {vs o o' calls} : Run cx pt t vs o calls → Passes cx.prog o → cx.prog.Follows o o' →
      Run cx pt t (vs ++ [⟨o, o⟩]) o' calls
  | branch {vs o s o' calls} : Run cx pt t vs o calls → cx.prog.kind o = .terminator .branch →
      cx.prog.Succ (cx.prog.blockOf o) s → cx.prog.opAt? s 0 = some o' →
      Run cx pt t (vs ++ [⟨o, o⟩]) o' calls
  | call {vs o f o' calls} : Run cx pt t vs o calls → cx.prog.kind o = .call f →
      cx.prog.entryOp? f = some o' → Run cx pt t (vs ++ [⟨o, o⟩]) o' (o :: calls)
  | ret {vs o c o' calls} : Run cx pt t vs o (c :: calls) → cx.prog.kind o = .terminator .ret →
      c ∉ pt.inRegion → cx.prog.Follows c o' → Run cx pt t (vs ++ [⟨o, o⟩]) o' calls
  | region {vs o e o' region calls} : Run cx pt t vs o calls →
      cx.prog.kind o = .library .atomicBegin →
      AtomicRegion.scan cx.prog cx.movability o = .ok region → e ∈ region.ends →
      cx.prog.Level o e → cx.prog.Follows e o' → Run cx pt t (vs ++ [⟨o, e⟩]) o' calls

/-- What the analysis of a program has established. -/
structure Grounded (cx : Analysis) (pt : PhaseTracker) (t : ThreadId) : Prop where
  shaped : cx.prog.Shaped
  acyclic : ∀ p, ¬ Relation.TransGen cx.prog.Calls p p
  returns : ∀ f < cx.prog.procs.size,
    Reachability.Returns cx.prog (fun f => cx.reach.mayReturn f = true) f →
      cx.reach.mayReturn f = true
  owns : ∀ first o, (cx.prog.firstPoint (cx.threads.get t).proc).op? cx.prog = some first →
    Relation.ReflTransGen (cx.prog.Advance fun f => cx.reach.mayReturn f = true) first o →
    ∀ f, (cx.prog.kind o).callee? = some f → cx.prog.pointAfter o ∈ cx.ownership.sites f
  scanned : Scanned cx pt

def Reached (cx : Analysis) (t : ThreadId) (o : OpId) : Prop :=
  ∃ first, (cx.prog.firstPoint (cx.threads.get t).proc).op? cx.prog = some first ∧
    Relation.ReflTransGen (cx.prog.Advance fun f => cx.reach.mayReturn f = true) first o

/-- The calls that a run is in, the innermost first: each is reached by the thread, and its callee
runs up to the operation that comes next or to the next call. -/
def Framed (cx : Analysis) (t : ThreadId) : OpId → List OpId → Prop
  | o, [] => cx.prog.procOf o = (cx.threads.get t).proc
  | o, c :: calls => ∃ f e, cx.prog.kind c = .call f ∧ cx.prog.entryOp? f = some e ∧
      cx.prog.Level e o ∧ c < cx.prog.ops.size ∧ Reached cx t c ∧ Framed cx t c calls

/-- The thread has arrived at its first point over blocks that only branch on, and has followed the
tracker since then. -/
structure Arrived (cx : Analysis) (pt : PhaseTracker) (t : ThreadId) (vs : List Visit) (o : OpId)
    (calls : List OpId) : Prop where
  trail : ∃ hops vs', vs = hops ++ vs' ∧
    (∀ v ∈ hops, cx.prog.kind v.op = .terminator .branch) ∧
    ∃ p rest, Trail cx pt t vs' p (o :: rest)
  reached : Reached cx t o
  framed : Framed cx t o calls

/-- The thread is on its way to the first point. -/
structure Arriving (cx : Analysis) (t : ThreadId) (vs : List Visit) (o : OpId)
    (calls : List OpId) : Prop where
  hops : ∀ v ∈ vs, cx.prog.kind v.op = .terminator .branch
  block : ∃ b s, cx.prog.opAt? b 0 = some o ∧
    (cx.prog.block b).proc = (cx.threads.get t).proc ∧ cx.prog.Hop b s ∧
    Relation.ReflTransGen cx.prog.Hop s (cx.prog.firstPoint (cx.threads.get t).proc).block
  calls : calls = []

theorem Arriving.kind {vs : List Visit} {o : OpId} {calls : List OpId}
    (h : Arriving cx t vs o calls) : cx.prog.kind o = .terminator .branch := by
  obtain ⟨-, ⟨b, s, hb, -, hhop, -⟩, -⟩ := h
  obtain ⟨o₁, ho₁, hk, -⟩ := Program.hop_ok hhop
  obtain rfl : o = o₁ := Option.some.inj (hb.symm.trans ho₁)
  exact hk

theorem Trail.mem {vs : List Visit} {p : Point} {o : OpId} {rest : List OpId}
    (h : Trail cx pt t vs p (o :: rest)) : o :: rest <:+ (cx.prog.block p.block).ops := by
  obtain ⟨ops, hops, hs⟩ := h.suffix
  exact hs.trans (Program.ops?_suffix hops)

theorem Arrived.extend {vs : List Visit} {o o' : OpId} {calls calls' : List OpId} {v : Visit}
    (h : Arrived cx pt t vs o calls) (hr : Reached cx t o') (hf : Framed cx t o' calls')
    (ht : ∀ vs' p rest, Trail cx pt t vs' p (o :: rest) →
      ∃ p' rest', Trail cx pt t (vs' ++ [v]) p' (o' :: rest')) :
    Arrived cx pt t (vs ++ [v]) o' calls' := by
  obtain ⟨hops, vs', rfl, hhops, p, rest, htrail⟩ := h.trail
  exact ⟨⟨hops, vs' ++ [v], by simp, hhops, ht vs' p rest htrail⟩, hr, hf⟩

namespace Grounded

open Program

variable (g : Grounded cx pt t)

include g

theorem mem_of_trail {vs : List Visit} {p : Point} {o : OpId} {rest : List OpId}
    (h : Trail cx pt t vs p (o :: rest)) :
    o < cx.prog.ops.size ∧ cx.prog.blockOf o = p.block :=
  g.shaped.mem_ops.mp (h.mem.subset List.mem_cons_self)

theorem reached_level {o o' : OpId} (h : Reached cx t o) (hl : cx.prog.Level o o') :
    Reached cx t o' := by
  obtain ⟨first, hfirst, hpath⟩ := h
  exact ⟨first, hfirst, hpath.trans (g.shaped.advance_of_level g.returns hl).1⟩

theorem framed_level {o o' : OpId} {calls : List OpId} (h : Framed cx t o calls)
    (ho : o < cx.prog.ops.size) (hl : cx.prog.Level o o') : Framed cx t o' calls := by
  cases calls with
  | nil => exact (g.shaped.procOf_level ho hl).2.trans h
  | cons c calls =>
    obtain ⟨f, e, hk, he, hlevel, hrest⟩ := h
    exact ⟨f, e, hk, he, hlevel.trans hl, hrest⟩

theorem calls_of_framed {o : OpId} {calls : List OpId} (ho : o < cx.prog.ops.size)
    (h : Framed cx t o calls) :
    Relation.ReflTransGen cx.prog.Calls (cx.threads.get t).proc (cx.prog.procOf o) ∧
      (calls ≠ [] → cx.prog.procOf o ≠ (cx.threads.get t).proc) := by
  induction calls generalizing o with
  | nil => exact ⟨by rw [show cx.prog.procOf o = _ from h], fun hn => absurd rfl hn⟩
  | cons c calls ih =>
    obtain ⟨f, e, hk, he, hlevel, hc, -, hrest⟩ := h
    obtain ⟨-, helt, hproc⟩ := g.shaped.entryOp_ok he
    have hf : cx.prog.procOf o = f := (g.shaped.procOf_level helt hlevel).2.trans hproc
    have hcall : cx.prog.Calls (cx.prog.procOf c) f := ⟨c, hc, rfl, by rw [hk]; rfl⟩
    rw [hf]
    refine ⟨(ih hc hrest).1.tail hcall, fun _ hroot => ?_⟩
    rw [hroot] at hcall
    exact g.acyclic _ (.tail' (ih hc hrest).1 hcall)

theorem lt_of_arrived {vs : List Visit} {o : OpId} {calls : List OpId}
    (h : Arrived cx pt t vs o calls) : o < cx.prog.ops.size := by
  obtain ⟨_, _, _, _, p, rest, htrail⟩ := h.trail
  exact (g.mem_of_trail htrail).1

theorem extend_level {vs : List Visit} {o o' : OpId} {calls : List OpId} {v : Visit}
    (h : Arrived cx pt t vs o calls) (hl : cx.prog.Level o o')
    (ht : ∀ vs' p rest, Trail cx pt t vs' p (o :: rest) →
      ∃ p' rest', Trail cx pt t (vs' ++ [v]) p' (o' :: rest')) :
    Arrived cx pt t (vs ++ [v]) o' calls :=
  h.extend (g.reached_level h.reached hl) (g.framed_level h.framed (g.lt_of_arrived h) hl) ht

theorem pass {vs : List Visit} {o o' : OpId} {calls : List OpId}
    (h : Arrived cx pt t vs o calls) (hp : Passes cx.prog o) (hf : cx.prog.Follows o o') :
    Arrived cx pt t (vs ++ [⟨o, o⟩]) o' calls := by
  refine g.extend_level h (.next .refl hp.1 hp.2.1 hf) fun vs' p rest htrail => ?_
  obtain ⟨-, rest', rfl⟩ := g.shaped.suffix_follows htrail.mem hf
  exact ⟨p, rest', htrail.pass hp⟩

theorem branch {vs : List Visit} {o o' : OpId} {s : BlockId} {calls : List OpId}
    (h : Arrived cx pt t vs o calls) (hk : cx.prog.kind o = .terminator .branch)
    (hs : cx.prog.Succ (cx.prog.blockOf o) s) (ho : cx.prog.opAt? s 0 = some o') :
    Arrived cx pt t (vs ++ [⟨o, o⟩]) o' calls := by
  refine g.extend_level h (.branch .refl hk hs ho) fun vs' p rest htrail => ?_
  obtain ⟨rest', hops⟩ := ops?_of_opAt? ho
  rw [(g.mem_of_trail htrail).2] at hs
  obtain rfl := g.shaped.terminator_last htrail.mem (by simp [hk, OpKind.isTerminator])
  exact ⟨.entry s, rest', htrail.jump (v := ⟨o, o⟩) (.branch hk hs) hops⟩

theorem call {vs : List Visit} {o o' : OpId} {f : ProcId} {calls : List OpId}
    (h : Arrived cx pt t vs o calls) (hk : cx.prog.kind o = .call f)
    (he : cx.prog.entryOp? f = some o') :
    Arrived cx pt t (vs ++ [⟨o, o⟩]) o' (o :: calls) := by
  have hcall : (cx.prog.kind o).callee? = some f := by rw [hk]; rfl
  obtain ⟨first, hfirst, hpath⟩ := h.reached
  refine h.extend ⟨first, hfirst, hpath.tail (.enter hcall he)⟩
    ⟨f, o', hk, he, .refl, g.lt_of_arrived h, h.reached, h.framed⟩ ?_
  intro vs' p rest htrail
  obtain ⟨rest', hops⟩ := ops?_entry he
  exact ⟨_, rest', htrail.jump (v := ⟨o, o⟩) (.call hk) hops⟩

theorem ret {vs : List Visit} {o o' c : OpId} {calls : List OpId}
    (h : Arrived cx pt t vs o (c :: calls)) (hk : cx.prog.kind o = .terminator .ret)
    (hc : c ∉ pt.inRegion) (hf : cx.prog.Follows c o') :
    Arrived cx pt t (vs ++ [⟨o, o⟩]) o' calls := by
  obtain ⟨f, e, hkc, he, hlevel, hclt, hreach, hframe⟩ := h.framed
  have hcall : (cx.prog.kind c).callee? = some f := by rw [hkc]; rfl
  have hskip : cx.prog.Level c o' := .skip .refl hcall he hlevel hk hf
  refine h.extend (g.reached_level hreach hskip) (g.framed_level hframe hclt hskip) ?_
  intro vs' p rest htrail
  obtain ⟨holt, hblock⟩ := g.mem_of_trail htrail
  obtain ⟨-, helt, hproc⟩ := g.shaped.entryOp_ok he
  have hpf : (cx.prog.block p.block).proc = f := by
    rw [← hblock]
    exact (g.shaped.procOf_level helt hlevel).2.trans hproc
  have hroot : (cx.prog.block p.block).proc ≠ (cx.threads.get t).proc := by
    rw [← hblock]
    exact (g.calls_of_framed holt h.framed).2 (by simp)
  obtain ⟨first, hfirst, hpath⟩ := hreach
  have hsite := g.owns first c hfirst hpath f hcall
  obtain ⟨rest', hops⟩ := ops?_of_opAt? hf
  obtain rfl := g.shaped.terminator_last htrail.mem (by simp [hk, OpKind.isTerminator])
  refine ⟨cx.prog.pointAfter c, rest', htrail.jump (v := ⟨o, o⟩) (.ret hk hroot (hpf ▸ hsite) ?_) hops⟩
  intro c' hc'
  have hself : cx.prog.opAt? (cx.prog.blockOf c) (cx.prog.op c).position = some c :=
    g.shaped.opAt?_self hclt
  obtain rfl : c = c' := Option.some.inj (hself.symm.trans hc')
  exact hc

theorem region {vs : List Visit} {o e o' : OpId} {found : AtomicRegion} {calls : List OpId}
    (h : Arrived cx pt t vs o calls) (hk : cx.prog.kind o = .library .atomicBegin)
    (hscan : AtomicRegion.scan cx.prog cx.movability o = .ok found) (he : e ∈ found.ends)
    (hl : cx.prog.Level o e) (hf : cx.prog.Follows e o') :
    Arrived cx pt t (vs ++ [⟨o, e⟩]) o' calls := by
  have hke := (AtomicRegion.scan_ok hscan).1 e he
  have hlevel : cx.prog.Level o o' := .next hl (by simp [hke, OpKind.isTerminator])
    (by rw [hke]; rfl) hf
  refine g.extend_level h hlevel fun vs' p rest htrail => ?_
  obtain ⟨rest', hops⟩ := ops?_of_opAt? hf
  have hexit : (e, cx.prog.pointAfter e) ∈ found.ends.zip found.exits :=
    (AtomicRegion.mem_zip_exits hscan).mpr ⟨he, rfl⟩
  have hat : regionAt cx pt o = .ok found := (g.scanned.regionAt o).trans hscan
  exact ⟨_, rest', htrail.jump (v := ⟨o, e⟩) (.region hk hat hexit) hops⟩

theorem arrive {vs : List Visit} {o : OpId} {b : BlockId}
    (hvs : ∀ v ∈ vs, cx.prog.kind v.op = .terminator .branch) (ho : cx.prog.opAt? b 0 = some o)
    (hb : Relation.ReflTransGen cx.prog.Hop b
      (cx.prog.firstPoint (cx.threads.get t).proc).block)
    (hproc : (cx.prog.block b).proc = (cx.threads.get t).proc) :
    Arriving cx t vs o [] ∨ Arrived cx pt t vs o [] := by
  rcases Relation.ReflTransGen.cases_head hb with hfirst | ⟨s, hs, hrest⟩
  · right
    have hop : (cx.prog.firstPoint (cx.threads.get t).proc).op? cx.prog = some o := by
      show cx.prog.opAt? (cx.prog.firstPoint (cx.threads.get t).proc).block 0 = some o
      rw [← hfirst]
      exact ho
    obtain ⟨rest, hops⟩ := ops?_of_opAt? hop
    refine ⟨⟨vs, [], by simp, hvs, _, rest, .start hops⟩, ⟨o, hop, .refl⟩, ?_⟩
    show cx.prog.procOf o = _
    rw [procOf, (g.shaped.opAt?_iff.mp ho).2.1, hproc]
  · exact .inl ⟨hvs, ⟨b, s, ho, hproc, hs, hrest⟩, rfl⟩

theorem hop {vs : List Visit} {o o' : OpId} {s : BlockId} {calls : List OpId}
    (h : Arriving cx t vs o calls) (hs : cx.prog.Succ (cx.prog.blockOf o) s)
    (ho : cx.prog.opAt? s 0 = some o') :
    Arriving cx t (vs ++ [⟨o, o⟩]) o' calls ∨ Arrived cx pt t (vs ++ [⟨o, o⟩]) o' calls := by
  have hk := h.kind
  obtain ⟨hvs, ⟨b, s', hb, hproc, hhop, hrest⟩, rfl⟩ := h
  obtain ⟨-, -, -, hsuccs⟩ := hop_ok hhop
  obtain ⟨holt, hob, -⟩ := g.shaped.opAt?_iff.mp hb
  rw [hob] at hs
  obtain rfl : s = s' := by
    rw [Succ, hsuccs] at hs
    exact List.mem_singleton.mp hs
  refine g.arrive (fun v hv => ?_) ho hrest ?_
  · rcases List.mem_append.mp hv with hv | hv
    · exact hvs v hv
    · rw [List.mem_singleton.mp hv]
      exact hk
  · exact (g.shaped.succ _ (lt_of_succ hs) _ hs).2.trans hproc

/-- Every run of a thread follows the tracker, once it has arrived at the first point. -/
theorem follows_run {vs : List Visit} {o : OpId} {calls : List OpId}
    (h : Run cx pt t vs o calls) : Arriving cx t vs o calls ∨ Arrived cx pt t vs o calls := by
  induction h with
  | start he =>
    obtain ⟨hf, -, -⟩ := g.shaped.entryOp_ok he
    obtain ⟨-, -, hentry, -, hproc, -⟩ := g.shaped.entry_ok hf
    rw [entryOp?, hentry, Option.bind_some] at he
    exact g.arrive (by simp) he (skipHops_hops _ _ _) hproc
  | pass _ hp hf ih =>
    rcases ih with ih | ih
    · exact absurd (by simp [ih.kind, OpKind.isTerminator]) hp.1
    · exact .inr (g.pass ih hp hf)
  | branch _ hk hs ho ih =>
    rcases ih with ih | ih
    · exact g.hop ih hs ho
    · exact .inr (g.branch ih hk hs ho)
  | call _ hk he ih =>
    rcases ih with ih | ih
    · rw [ih.kind] at hk
      cases hk
    · exact .inr (g.call ih hk he)
  | ret _ hk hc hf ih =>
    rcases ih with ih | ih
    · cases ih.calls
    · exact .inr (g.ret ih hk hc hf)
  | region _ hk hscan he hl hf ih =>
    rcases ih with ih | ih
    · rw [ih.kind] at hk
      cases hk
    · exact .inr (g.region ih hk hscan he hl hf)

end Grounded

end PhaseTracker

open PhaseTracker in
theorem Program.Built.grounded {prog : Program} (hbuilt : prog.Built)
    (hsize : prog.ops.size ≤ BitMatrix.maxRows) {mayAlias : AliasOracle} {cx : Analysis}
    (h : (prog.analyze mayAlias).result = .ok cx) {pt : PhaseTracker} (hp : Scanned cx pt)
    {t : ThreadId} (ht : t ∈ cx.threads.ids) : Grounded cx pt t := by
  have ha := Program.analyze_ok h
  obtain rfl := ha.prog_eq
  have hc := hbuilt.coherent.1
  exact ⟨ha.shaped hc, ha.acyclic hc, ha.returns hc hsize,
    fun first o hfirst ho => (Ownership.owns_code (ha.shaped hc) ha.ownership ht hfirst ho).2, hp⟩

end YieldPlan
