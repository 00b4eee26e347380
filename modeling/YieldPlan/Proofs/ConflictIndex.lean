import YieldPlan.Proofs.AliasComponents
import YieldPlan.Proofs.ProcedureMovers

/-! The conflicts of an access are the accesses of concurrent threads in the alias sets that it
meets, without those that atomicity or a common lock keeps apart from it. As alias sets are
components, an access may conflict with one that it does not alias: a chain of accesses of the other
thread leads there. An access is movable exactly if it has no conflicts. -/

namespace YieldPlan

theorem lookup_filterMap {κ ν : Type} [DecidableEq κ] {f : κ → Option (κ × ν)}
    (hf : ∀ k e, f k = some e → e.1 = k) (l : List κ) (k : κ) :
    (l.filterMap f).lookup k = if k ∈ l then (f k).map (·.2) else none := by
  induction l with
  | nil => rfl
  | cons a l ih =>
    cases ha : f a with
    | none =>
      rw [List.filterMap_cons_none ha, ih]
      by_cases hk : k = a
      · subst hk
        simp [ha]
      · simp [hk]
    | some e =>
      obtain ⟨key, v⟩ := e
      obtain rfl : key = a := hf a _ ha
      rw [List.filterMap_cons_some ha, List.lookup_cons]
      by_cases hk : k = key
      · subst hk
        simp [ha]
      · have hne : (k == key) = false := by simpa using hk
        simp [hne, hk, ih]

def Program.UpdatesAtomically (prog : Program) (o : OpId) : Prop :=
  ∃ l, prog.kind o = .memory .atomicUpdate l

theorem Program.isAtomicUpdate_iff {prog : Program} {o : OpId} :
    (prog.kind o).isAtomicUpdate = true ↔ prog.UpdatesAtomically o := by
  unfold UpdatesAtomically
  cases prog.kind o with
  | memory access l => cases access <;> simp [OpKind.isAtomicUpdate]
  | _ => simp [OpKind.isAtomicUpdate]

def LockSets.Guards (locks : LockSets) (a b : OpId) : Prop :=
  ∃ s t, locks.held? a = some s ∧ locks.held? b = some t ∧
    ∃ x ∈ s, ∃ y ∈ t, x.lock = y.lock ∧ (x.exclusive = true ∨ y.exclusive = true)

theorem LockSets.isProtected_iff {locks : LockSets} {a b : OpId} :
    locks.isProtected a b = true ↔ locks.Guards a b := by
  unfold isProtected Guards
  cases locks.held? a with
  | none => simp
  | some s =>
    cases locks.held? b with
    | none => simp
    | some t => simp [shareLock]

namespace Conflicts

variable {prog : Program} {ts : Threads} {own : Ownership} {locks : LockSets}
  {mayAlias : AliasOracle} {t u : ThreadId} {i j o : OpId}

theorem races_iff : races prog locks i j = true ↔
    ¬ (prog.UpdatesAtomically i ∧ prog.UpdatesAtomically j) ∧ ¬ locks.Guards i j := by
  rw [races, Bool.and_eq_true, Bool.not_eq_true', Bool.not_eq_true', ← Bool.not_eq_true,
    ← Bool.not_eq_true, Bool.and_eq_true, LockSets.isProtected_iff, Program.isAtomicUpdate_iff,
    Program.isAtomicUpdate_iff]

theorem mem_besides : u ∈ besides ts t ↔
    u ∈ ts.ids ∧ (u ≠ t ∨ (ts.get t).multiInstance = true) := by
  rw [besides, List.mem_filter, Bool.or_eq_true, decide_eq_true_iff]
  by_cases hu : u = t
  · rw [hu]
  · simp [hu]

theorem mem_inThread : j ∈ inThread prog own locks mayAlias i u ↔
    j ∈ (((own.aliasSets.get? u).getD {}).aliasing prog mayAlias i).flatten ∧
      races prog locks i j = true := by
  unfold inThread
  cases own.aliasSets.get? u with
  | none => simp [AliasSets.aliasing]
  | some sets => simp only [Option.getD_some, List.mem_filter]

theorem mem_find_iff : j ∈ find prog ts own locks mayAlias i t ↔
    ∃ u ∈ besides ts t, j ∈ inThread prog own locks mayAlias i u := by
  simp [find]

theorem entry?_key {e : OpId × List OpId} (h : entry? prog ts own locks mayAlias o = some e) :
    e.1 = o := by
  unfold entry? at h
  split at h
  · split at h
    · split at h
      · cases h
      · cases h
        rfl
    · cases h
  · cases h

variable {c : Conflicts}

theorem get?_table (hc : (prog.conflicts ts own locks mayAlias).result = .ok c)
    (ho : o < prog.ops.size) :
    c.table.get? o = (Conflicts.entry? prog ts own locks mayAlias o).map (·.2) := by
  simp only [Program.conflicts, Traced.result_bind] at hc
  obtain ⟨_, -, hc⟩ := Checked.bind_ok.mp hc
  cases hc
  have hmem : o ∈ prog.opIds := List.mem_range.mpr ho
  rw [Table.get?, lookup_filterMap (fun _ _ => entry?_key), if_pos hmem]

theorem conflictsWith_eq (hc : (prog.conflicts ts own locks mayAlias).result = .ok c)
    (hmemory : (prog.kind i).isMemory = true) (howner : own.owner? i = some t) :
    c.conflictsWith i = find prog ts own locks mayAlias i t ∧
      (c.hasConflicts i = true ↔ c.conflictsWith i ≠ []) := by
  have hlt : i < prog.ops.size := by
    apply Program.lt_of_kind_ne
    intro hk
    simp [hk, OpKind.isMemory] at hmemory
  unfold conflictsWith hasConflicts Table.contains
  rw [get?_table hc hlt]
  unfold entry?
  simp only [howner, hmemory, if_true]
  cases find prog ts own locks mayAlias i t <;> simp

end Conflicts

namespace Analyzed

variable {prog : Program} {mayAlias : AliasOracle} {cx : Analysis} {t u : ThreadId} {i j o : OpId}
  (h : Analyzed prog mayAlias cx)

include h

theorem owner_mem (ho : cx.conflicts.owner? o = some t) : t ∈ cx.threads.ids := by
  have hP : Ownership.Maintains prog mayAlias cx.threads.ids
      fun own => ∀ o t, own.owner? o = some t → t ∈ cx.threads.ids := by
    refine ⟨fun ht _ hold x u hx => ?_, fun _ _ => id⟩
    simp only [Ownership.owner?, Ownership.claim, Table.get?_put] at hx
    split at hx
    · cases hx
      exact ht
    · exact hold x u hx
  have hall := Ownership.addThreads_maintains hP (fun _ => id)
    (Ownership.addThreads_of_ownership h.ownership) (fun o t h => by cases h)
  rw [(Program.conflicts_ok h.conflicts).1] at ho
  exact hall o t ho

theorem aliasSets_components (hsym : ∀ a b, mayAlias a b = mayAlias b a) (u : ThreadId) :
    ((cx.ownership.aliasSets.get? u).getD {}).Components prog mayAlias := by
  have hP : Ownership.Maintains prog mayAlias cx.threads.ids
      fun own => ∀ u, ((own.aliasSets.get? u).getD {}).Components prog mayAlias := by
    refine ⟨fun _ _ hold u => ?_, fun _ _ => id⟩
    simp only [Ownership.claim, Table.get?_put]
    split
    · exact (hold _).insert hsym _
    · exact hold u
  exact Ownership.addThreads_maintains hP (fun _ => id)
    (Ownership.addThreads_of_ownership h.ownership) (fun _ => AliasSets.components_empty) u

theorem mem_aliasSets : ((cx.ownership.aliasSets.get? u).getD {}).contains o = true ↔
    cx.conflicts.owner? o = some u ∧ (prog.kind o).isMemory = true := by
  rw [(Program.conflicts_ok h.conflicts).1]
  exact (Ownership.addThreads_records (Ownership.addThreads_of_ownership h.ownership)
    Ownership.recorded_empty).aliasSets u o

end Analyzed

def Conflicts.Accesses (prog : Program) (c : Conflicts) (t : ThreadId) (o : OpId) : Prop :=
  c.owner? o = some t ∧ (prog.kind o).isMemory = true

/-- The operation aliases an access of the thread from which a chain of its accesses leads to another
one. -/
def Conflicts.Chained (prog : Program) (mayAlias : AliasOracle) (c : Conflicts) (t : ThreadId)
    (i j : OpId) : Prop :=
  ∃ k, c.Accesses prog t k ∧ AliasChain prog mayAlias (c.Accesses prog t) k j ∧
    mayAlias (prog.op k) (prog.op i) = true

theorem Conflicts.Chained.accesses {prog : Program} {mayAlias : AliasOracle} {c : Conflicts}
    {t : ThreadId} {i j : OpId} (h : c.Chained prog mayAlias t i j) : c.Accesses prog t j := by
  obtain ⟨k, hk, hchain, -⟩ := h
  rcases Relation.ReflTransGen.cases_tail hchain with rfl | ⟨_, -, -, hj, -⟩
  · exact hk
  · exact hj

/-- Atomicity or a common lock keeps the operations apart. -/
def Analysis.Apart (cx : Analysis) (i j : OpId) : Prop :=
  cx.prog.UpdatesAtomically i ∧ cx.prog.UpdatesAtomically j ∨ cx.locks.Guards i j

theorem Analysis.Apart.symm {cx : Analysis} {i j : OpId} (h : cx.Apart i j) : cx.Apart j i := by
  rcases h with hatomic | ⟨s, t, hs, ht, x, hx, y, hy, hlock, hexclusive⟩
  · exact .inl hatomic.symm
  · exact .inr ⟨t, s, ht, hs, y, hy, x, hx, hlock.symm, hexclusive.symm⟩

namespace Analyzed

variable {prog : Program} {mayAlias : AliasOracle} {cx : Analysis} {t u : ThreadId} {i j : OpId}
  (h : Analyzed prog mayAlias cx) (hsym : ∀ a b, mayAlias a b = mayAlias b a)

include h

theorem conflictsWith_eq (hi : cx.conflicts.Accesses prog t i) :
    cx.conflicts.conflictsWith i =
        Conflicts.find prog cx.threads cx.ownership cx.locks mayAlias i t ∧
      (cx.conflicts.hasConflicts i = true ↔ cx.conflicts.conflictsWith i ≠ []) := by
  have howner : cx.ownership.owner? i = some t :=
    ((Program.conflicts_ok h.conflicts).1 i).symm.trans hi.1
  exact Conflicts.conflictsWith_eq h.conflicts hi.2 howner

theorem conflictsWith_sorted (hi : cx.conflicts.Accesses prog t i) :
    (cx.conflicts.conflictsWith i).Pairwise (· < ·) := by
  rw [(h.conflictsWith_eq hi).1]
  exact pairwise_sortNats _

theorem movable_eq_none_iff (hi : cx.conflicts.Accesses prog t i)
    (hseq : cx.threads.isSequential = false) :
    cx.movability.movable prog i = .none ↔ cx.conflicts.conflictsWith i ≠ [] := by
  obtain ⟨hsequential, hconflicts⟩ := Program.movability_context h.movability
  rw [Movability.movable, hsequential, hseq, hconflicts, ← (h.conflictsWith_eq hi).2]
  have hmemory := hi.2
  cases hk : prog.kind i with
  | memory access loc => simp [Movability.classify, hk]
  | _ => simp [hk, OpKind.isMemory] at hmemory

include hsym

theorem mem_aliasing_iff :
    j ∈ (((cx.ownership.aliasSets.get? u).getD {}).aliasing prog mayAlias i).flatten ↔
      cx.conflicts.Chained prog mayAlias u i j := by
  rw [(h.aliasSets_components hsym u).mem_aliasing]
  have hmember : (fun o => ((cx.ownership.aliasSets.get? u).getD {}).contains o = true) =
      cx.conflicts.Accesses prog u := funext fun o => propext h.mem_aliasSets
  rw [hmember]
  exact exists_congr fun k => and_congr_left' h.mem_aliasSets

theorem mem_conflictsWith (hi : cx.conflicts.Accesses prog t i) :
    j ∈ cx.conflicts.conflictsWith i ↔ ∃ u, cx.conflicts.Accesses prog u j ∧
      (u ≠ t ∨ (cx.threads.get t).multiInstance = true) ∧
      cx.conflicts.Chained prog mayAlias u i j ∧ ¬ cx.Apart i j := by
  rw [(h.conflictsWith_eq hi).1, Conflicts.mem_find_iff]
  apply exists_congr
  intro u
  rw [Conflicts.mem_inThread, h.mem_aliasing_iff hsym, Conflicts.races_iff, Conflicts.mem_besides,
    Analysis.Apart, not_or, h.prog_eq]
  constructor
  · rintro ⟨⟨-, hbeside⟩, hchained, hrace⟩
    exact ⟨hchained.accesses, hbeside, hchained, hrace⟩
  · rintro ⟨hj, hbeside, hchained, hrace⟩
    exact ⟨⟨h.owner_mem hj.1, hbeside⟩, hchained, hrace⟩

theorem conflicts_of_alias (hi : cx.conflicts.Accesses prog t i)
    (hj : cx.conflicts.Accesses prog u j) (hbeside : u ≠ t ∨ (cx.threads.get t).multiInstance = true)
    (halias : mayAlias (prog.op i) (prog.op j) = true) (hapart : ¬ cx.Apart i j) :
    j ∈ cx.conflicts.conflictsWith i ∧ i ∈ cx.conflicts.conflictsWith j := by
  constructor
  · exact (h.mem_conflictsWith hsym hi).mpr
      ⟨u, hj, hbeside, ⟨j, hj, .refl, hsym _ _ ▸ halias⟩, hapart⟩
  · have hbeside' : t ≠ u ∨ (cx.threads.get u).multiInstance = true := by
      by_cases hu : u = t
      · exact .inr (hu ▸ hbeside.resolve_left (not_not.mpr hu))
      · exact .inl (Ne.symm hu)
    exact (h.mem_conflictsWith hsym hj).mpr
      ⟨t, hi, hbeside', ⟨i, hi, .refl, halias⟩, fun happart => hapart happart.symm⟩

end Analyzed

/-- With a symmetric oracle, the conflicts of an access are in increasing order, and they are exactly the
accesses of threads that run beside its own thread, which includes that thread if it has several
instances, to which a chain of accesses leads from one that the access may alias, where nothing keeps
the two apart. Concurrent accesses that alias directly conflict in both directions. Unless the program
is sequential, an access is immovable exactly if it has conflicts. -/
theorem conflicts_are_exact {prog : Program} {mayAlias : AliasOracle} {cx : Analysis}
    (hcx : (prog.analyze mayAlias).result = .ok cx)
    (hsym : ∀ a b, mayAlias a b = mayAlias b a) {t : ThreadId} {i : OpId}
    (hi : cx.conflicts.Accesses prog t i) :
    (cx.conflicts.conflictsWith i).Pairwise (· < ·) ∧
    (∀ j, j ∈ cx.conflicts.conflictsWith i ↔ ∃ u, cx.conflicts.Accesses prog u j ∧
      (u ≠ t ∨ (cx.threads.get t).multiInstance = true) ∧
      cx.conflicts.Chained prog mayAlias u i j ∧ ¬ cx.Apart i j) ∧
    (∀ u j, cx.conflicts.Accesses prog u j →
      (u ≠ t ∨ (cx.threads.get t).multiInstance = true) →
      mayAlias (prog.op i) (prog.op j) = true → ¬ cx.Apart i j →
      j ∈ cx.conflicts.conflictsWith i ∧ i ∈ cx.conflicts.conflictsWith j) ∧
    (cx.threads.isSequential = false →
      (cx.movability.movable prog i = .none ↔ cx.conflicts.conflictsWith i ≠ [])) := by
  have h := Program.analyze_ok hcx
  refine ⟨h.conflictsWith_sorted hi, fun j => h.mem_conflictsWith hsym hi, ?_,
    h.movable_eq_none_iff hi⟩
  intro u j hj hbeside halias hapart
  exact h.conflicts_of_alias hsym hi hj hbeside halias hapart

theorem locationAliasing_symm (a b : Operation) : locationAliasing a b = locationAliasing b a := by
  unfold locationAliasing
  cases a.kind.location? <;> cases b.kind.location? <;> simp [eq_comm, Bool.or_comm]

/-- The worker writes to an unknown place, which may be what the entrypoint writes and what the worker
itself has read. Both threads count up, and the worker reads the count. -/
def BuildStep.chainedAccessSteps : List BuildStep :=
  [.proc "main", .proc "worker", .block 0 "entry", .block 1 "entry",
    .op 0 (.library (.threadCreate 1)), .op 0 (.memory .write (.named "x")),
    .op 0 (.memory .atomicUpdate (.named "n")), .op 0 (.terminator .ret),
    .op 1 (.memory .read (.named "y")), .op 1 (.memory .write .unknown),
    .op 1 (.memory .atomicUpdate (.named "n")), .op 1 (.memory .read (.named "n")),
    .op 1 (.terminator .ret)]

def Program.chainedAccess : Program :=
  ((BuildStep.applyAll {} BuildStep.chainedAccessSteps).toOption.getD default).1

def Analysis.chainedAccess : Analysis :=
  (Program.chainedAccess.analyze locationAliasing).result.toOption.getD default

/-- The write of the entrypoint conflicts with the first read through the other write. That read does
not conflict with it. Of the accesses of the worker, only the update is kept apart from the update of
the entrypoint. -/
theorem access_conflicts_along_chain :
    (Program.chainedAccess.analyze locationAliasing).result = .ok .chainedAccess ∧
      4 ∈ Analysis.chainedAccess.conflicts.conflictsWith 1 ∧
      Analysis.chainedAccess.conflicts.conflictsWith 4 = [] ∧
      Analysis.chainedAccess.conflicts.Chained .chainedAccess locationAliasing 1 1 4 ∧
      Analysis.chainedAccess.movability.movable .chainedAccess 1 = .none ∧
      Analysis.chainedAccess.conflicts.conflictsWith 2 = [4, 5, 7] ∧
      ¬ Analysis.chainedAccess.Apart 2 7 ∧ Analysis.chainedAccess.Apart 2 6 := by
  have hok : (Program.chainedAccess.analyze locationAliasing).result = .ok .chainedAccess :=
    Checked.ok_of_toOption (by decide +kernel)
  have hmem : 4 ∈ Analysis.chainedAccess.conflicts.conflictsWith 1 := by decide +kernel
  have hupdate : Analysis.chainedAccess.conflicts.conflictsWith 2 = [4, 5, 7] := by decide +kernel
  obtain ⟨-, hiff, -, hmovable⟩ := conflicts_are_exact hok locationAliasing_symm (t := 0) (i := 1)
    ⟨by decide +kernel, by decide +kernel⟩
  obtain ⟨-, hiff', hboth, -⟩ := conflicts_are_exact hok locationAliasing_symm (t := 0) (i := 2)
    ⟨by decide +kernel, by decide +kernel⟩
  refine ⟨hok, hmem, by decide +kernel, ?_, ?_, hupdate, ?_, ?_⟩
  · obtain ⟨u, hj, -, hchained, -⟩ := (hiff 4).mp hmem
    obtain rfl : 1 = u := Option.some.inj (Eq.trans (by decide +kernel) hj.1)
    exact hchained
  · exact (hmovable (by decide +kernel)).mpr (List.ne_nil_of_mem hmem)
  · obtain ⟨-, -, -, -, hapart⟩ := (hiff' 7).mp (by simp [hupdate])
    exact hapart
  · by_contra hapart
    have hconflict := (hboth 1 6 ⟨by decide +kernel, by decide +kernel⟩ (.inl (by decide))
      (by decide +kernel) hapart).1
    simp [hupdate] at hconflict

end YieldPlan
