import YieldPlan.Locks
import YieldPlan.Proofs.ReachabilityNodes
import Mathlib.Algebra.BigOperators.Group.Finset.Basic
import Mathlib.Algebra.Order.BigOperators.Group.Finset

/-! The lock sets at the starts of blocks only shrink, and a block whose set shrinks is taken up
again. Each update therefore uses up a part of what the sets can still lose, so the flow ends in
time, and then every successor of a block starts with no more than the block leaves. -/

namespace YieldPlan

namespace Table

variable {κ ν : Type} [DecidableEq κ]

theorem nodup_put {t : Table κ ν} (h : t.keys.Nodup) (k : κ) (v : ν) :
    (t.put k v).keys.Nodup := by
  have hsub : ((t.entries.filter fun e => e.1 ≠ k).map (·.1)).Sublist t.keys :=
    (List.filter_sublist (l := t.entries)).map _
  refine List.nodup_cons.mpr ⟨fun hk => ?_, h.sublist hsub⟩
  obtain ⟨e, he, rfl⟩ := List.mem_map.mp hk
  simpa using (List.mem_filter.mp he).2

theorem mem_entries {t : Table κ ν} (h : t.keys.Nodup) {k : κ} {v : ν} :
    (k, v) ∈ t.entries ↔ t.get? k = some v := by
  obtain ⟨l⟩ := t
  have hl : (l.map (·.1)).Nodup := h
  show (k, v) ∈ l ↔ l.lookup k = some v
  induction l with
  | nil => simp
  | cons e l ih =>
    obtain ⟨a, w⟩ := e
    obtain ⟨ha, hnd⟩ := List.nodup_cons.mp hl
    rw [List.mem_cons, List.lookup_cons]
    by_cases hk : k = a
    · subst hk
      have hnot : (k, v) ∉ l := fun hm => ha (List.mem_map_of_mem (f := (·.1)) hm)
      simp [hnot, eq_comm]
    · have hne : (k == a) = false := by simpa using hk
      simp [hne, hk, ih hnd hnd]

end Table

def OpKind.acquired? : OpKind → Option HeldLock
  | .library (.mutexLock (.named l)) | .library (.writeLock (.named l)) => some ⟨.named l, true⟩
  | .library (.readLock (.named l)) => some ⟨.named l, false⟩
  | _ => none

def Release.Spares (r : Release) (l : Location) : Prop := r.all = false ∧ l ∉ r.locks

theorem Release.mem_apply {r : Release} {s : LockSet} {x : HeldLock} :
    x ∈ r.apply s ↔ x ∈ s ∧ r.Spares x.lock := by
  unfold apply Spares
  split
  · next h => simp [h]
  · next h => simp [h]

theorem Release.nodup_apply {r : Release} {s : LockSet} (h : s.Nodup) : (r.apply s).Nodup := by
  unfold apply
  split
  · exact List.nodup_nil
  · exact h.filter _

theorem Release.spares_empty (x : Location) : ({} : Release).Spares x := ⟨rfl, List.not_mem_nil⟩

theorem Release.spares_add {r : Release} {l x : Location} :
    (r.add l).Spares x ↔ r.Spares x ∧ l ≠ .unknown ∧ l ≠ x := by
  cases l with
  | unknown => simp [Spares, add]
  | named name =>
    simp only [Spares, add, List.mem_cons, not_or, ne_eq, reduceCtorEq, not_false_eq_true, true_and]
    rw [and_assoc, and_comm (a := ¬ x = _), eq_comm (a := x)]

theorem LockSet.nodup_acquire {s : LockSet} (h : s.Nodup) (x : HeldLock) : (s.acquire x).Nodup := by
  unfold acquire
  split
  · exact h
  · next hx => exact List.nodup_cons.mpr ⟨hx, h⟩

theorem OpKind.mem_lockStep_iff {release : Table ProcId Release} {k : OpKind} {s : LockSet}
    {x : HeldLock} : x ∈ k.lockStep release s ↔ k.acquired? = some x ∨ (x ∈ s ∧
      (∀ l, k.released? = some l → l ≠ .unknown ∧ l ≠ x.lock) ∧
      ∀ f r, k = .call f → release.get? f = some r → r.Spares x.lock) := by
  have hunlock : ∀ l, x ∈ (Release.single l).apply s ↔
      x ∈ s ∧ l ≠ .unknown ∧ l ≠ x.lock := by
    intro l
    rw [Release.mem_apply, Release.single, Release.spares_add]
    simp [Release.spares_empty]
  cases k with
  | call f =>
    have hcall : (∀ f' r, OpKind.call f = .call f' → release.get? f' = some r → r.Spares x.lock) ↔
        ∀ r, release.get? f = some r → r.Spares x.lock := by
      refine ⟨fun h r => h f r rfl, fun h f' r hf => ?_⟩
      cases hf
      exact h r
    rw [hcall]
    cases hr : release.get? f <;> simp [lockStep, acquired?, released?, hr, Release.mem_apply]
  | library c =>
    cases c with
    | mutexLock l | readLock l | writeLock l =>
      cases l <;> simp [lockStep, acquired?, released?, eq_comm]
    | mutexUnlock l | rwUnlock l => simpa [lockStep, acquired?, released?] using hunlock l
    | _ => simp [lockStep, acquired?, released?]
  | _ => simp [lockStep, acquired?, released?]

theorem OpKind.mem_lockStep {release : Table ProcId Release} {k : OpKind} {s : LockSet}
    {x : HeldLock} (h : x ∈ k.lockStep release s) : k.acquired? = some x ∨ (x ∈ s ∧
      (∀ l, k.released? = some l → l ≠ .unknown ∧ l ≠ x.lock) ∧
      ∀ f r, k = .call f → release.get? f = some r → r.Spares x.lock) := mem_lockStep_iff.mp h

theorem OpKind.nodup_lockStep {release : Table ProcId Release} {k : OpKind} {s : LockSet}
    (h : s.Nodup) : (k.lockStep release s).Nodup := by
  unfold lockStep
  split
  case h_1 | h_2 | h_3 => exact LockSet.nodup_acquire h _
  case h_4 | h_5 => exact Release.nodup_apply h
  case h_6 =>
    split
    · exact Release.nodup_apply h
    · exact h
  case h_7 => exact h

namespace LockSets

variable {prog : Program} {release : Table ProcId Release}

def after (prog : Program) (release : Table ProcId Release) (s : LockSet) (ops : List OpId) :
    LockSet := ops.foldl (fun s o => (prog.kind o).lockStep release s) s

theorem nodup_after {s : LockSet} (h : s.Nodup) (ops : List OpId) :
    (after prog release s ops).Nodup := by
  induction ops generalizing s with
  | nil => exact h
  | cons o ops ih => exact ih (OpKind.nodup_lockStep h)

theorem mem_after {s : LockSet} {ops : List OpId} {x : HeldLock}
    (h : x ∈ after prog release s ops) :
    x ∈ s ∨ ∃ o ∈ ops, (prog.kind o).acquired? = some x := by
  induction ops generalizing s with
  | nil => exact .inl h
  | cons o ops ih =>
    rcases ih h with hx | ⟨o', ho', hx⟩
    · rcases OpKind.mem_lockStep hx with hx | ⟨hx, -⟩
      · exact .inr ⟨o, List.mem_cons_self, hx⟩
      · exact .inl hx
    · exact .inr ⟨o', List.mem_cons_of_mem _ ho', hx⟩

theorem blockEnd_eq (b : BlockId) (s : LockSet) :
    blockEnd prog release b s = after prog release s (prog.block b).ops := rfl

/-- A lock set that flows into a block changes nothing, or leaves the block with a smaller set that
is still to be handed on. -/
theorem Flow.into_cases (s : LockSet) (f : Flow) (b : BlockId) :
    (f.into s b = f ∧ ∃ old, f.starts.get? b = some old ∧ ∀ x ∈ old, x ∈ s) ∨
    ∃ new, (f.into s b).starts = f.starts.put b new ∧
      (f.into s b).pending = (if b ∈ f.pending then f.pending else f.pending ++ [b]) ∧
      (∀ x ∈ new, x ∈ s) ∧ ((f.starts.get? b = none ∧ new = s) ∨
        ∃ old, f.starts.get? b = some old ∧ new = old.meet s ∧ new.length < old.length) := by
  unfold into
  split
  · next hb => exact .inr ⟨s, rfl, rfl, fun x hx => hx, .inl ⟨hb, rfl⟩⟩
  · next old hb =>
    dsimp only
    have hle : (old.meet s).length ≤ old.length := List.length_filter_le _ _
    split
    · next hlen =>
      refine .inl ⟨rfl, old, hb, fun x hx => ?_⟩
      have hself : old.meet s = old := List.filter_sublist.eq_of_length hlen
      rw [← hself] at hx
      exact ((LockSet.mem_meet _ _ _).mp hx).2
    · next hlen =>
      refine .inr ⟨old.meet s, rfl, rfl, fun x hx => ((LockSet.mem_meet _ _ _).mp hx).2,
        .inr ⟨old, hb, rfl, by omega⟩⟩

def Flow.Covers (f : Flow) (b : BlockId) (s : LockSet) : Prop :=
  ∃ s', f.starts.get? b = some s' ∧ ∀ x ∈ s', x ∈ s

/-- Sets only shrink, and what has changed is still to be handed on. -/
structure Flow.Refines (f f' : Flow) : Prop where
  covers : ∀ b s, f.Covers b s → f'.Covers b s
  same : ∀ b, f'.starts.get? b = f.starts.get? b ∨ b ∈ f'.pending
  pending : ∀ b ∈ f.pending, b ∈ f'.pending

theorem Flow.Refines.refl (f : Flow) : f.Refines f :=
  ⟨fun _ _ h => h, fun _ => .inl rfl, fun _ h => h⟩

theorem Flow.Refines.trans {f g k : Flow} (h : f.Refines g) (h' : g.Refines k) : f.Refines k := by
  refine ⟨fun b s hc => h'.covers b s (h.covers b s hc), fun b => ?_,
    fun b hb => h'.pending b (h.pending b hb)⟩
  rcases h'.same b with hk | hk
  · rcases h.same b with hg | hg
    · exact .inl (hk.trans hg)
    · exact .inr (h'.pending b hg)
  · exact .inr hk

theorem Flow.into_refines (s : LockSet) (f : Flow) (b : BlockId) :
    f.Refines (f.into s b) ∧ (f.into s b).Covers b s := by
  rcases into_cases s f b with ⟨hf, hold⟩ | ⟨new, hstarts, hpending, hnew, hcases⟩
  · rw [hf]
    exact ⟨.refl f, hold⟩
  · have hb : b ∈ (f.into s b).pending := by
      rw [hpending]
      split
      · assumption
      · simp
    refine ⟨⟨fun c t hc => ?_, fun c => ?_, fun c hc => ?_⟩, new, ?_, hnew⟩
    · obtain ⟨u, hu, hut⟩ := hc
      by_cases hcb : c = b
      · subst hcb
        refine ⟨new, by rw [hstarts, Table.get?_put, if_pos rfl], fun x hx => ?_⟩
        rcases hcases with ⟨hnone, -⟩ | ⟨old, hold, rfl, -⟩
        · rw [hnone] at hu
          cases hu
        · cases hold.symm.trans hu
          exact hut x ((LockSet.mem_meet _ _ _).mp hx).1
      · exact ⟨u, by rw [hstarts, Table.get?_put, if_neg hcb, hu], hut⟩
    · by_cases hcb : c = b
      · exact .inr (hcb ▸ hb)
      · exact .inl (by rw [hstarts, Table.get?_put, if_neg hcb])
    · rw [hpending]
      split
      · exact hc
      · exact List.mem_append_left _ hc
    · rw [hstarts, Table.get?_put, if_pos rfl]

def locksOf (prog : Program) (p : ProcId) (entry : LockSet) : List HeldLock :=
  entry ++ (prog.procOps p).filterMap fun o => (prog.kind o).acquired?

def bound (prog : Program) (p : ProcId) (entry : LockSet) : Nat :=
  entry.length + (prog.procOps p).length

theorem length_le_bound {p : ProcId} {entry s : LockSet} (hnd : s.Nodup)
    (hs : ∀ x ∈ s, x ∈ locksOf prog p entry) : s.length ≤ bound prog p entry := by
  have hlen := (List.Nodup.subperm hnd hs).length_le
  have hops : ((prog.procOps p).filterMap fun o => (prog.kind o).acquired?).length ≤
      (prog.procOps p).length := List.length_filterMap_le _ _
  simp only [locksOf, List.length_append] at hlen
  simp only [bound]
  omega

structure Flow.Within (prog : Program) (p : ProcId) (entry : LockSet) (f : Flow) : Prop where
  keys : f.starts.keys.Nodup
  home : ∀ b s, f.starts.get? b = some s → b ∈ (prog.proc p).blocks
  nodup : ∀ b s, f.starts.get? b = some s → s.Nodup
  small : ∀ b s, f.starts.get? b = some s → ∀ x ∈ s, x ∈ locksOf prog p entry
  known : ∀ b ∈ f.pending, ∃ s, f.starts.get? b = some s

/-- What the sets of the first blocks can still lose, with the updates that are still to be made. -/
def Flow.cost (blocks bound : Nat) (f : Flow) : Nat :=
  ∑ b ∈ Finset.range blocks, ((f.starts.get? b).elim (bound + 1) List.length) + f.pending.length

variable {p : ProcId} {entry : LockSet}

theorem Flow.Within.into {f : Flow} (h : f.Within prog p entry) {s : LockSet} {b : BlockId}
    (hb : b ∈ (prog.proc p).blocks) (hnd : s.Nodup) (hs : ∀ x ∈ s, x ∈ locksOf prog p entry) :
    (f.into s b).Within prog p entry := by
  rcases into_cases s f b with ⟨hf, -⟩ | ⟨new, hstarts, hpending, hnew, hcases⟩
  · rwa [hf]
  · have hndnew : new.Nodup := by
      rcases hcases with ⟨-, rfl⟩ | ⟨old, hold, rfl, -⟩
      · exact hnd
      · exact (h.nodup b old hold).filter _
    have hget : ∀ c t, (f.into s b).starts.get? c = some t →
        (c = b ∧ t = new) ∨ f.starts.get? c = some t := by
      intro c t ht
      rw [hstarts, Table.get?_put] at ht
      split at ht
      · next hcb =>
        cases ht
        exact .inl ⟨hcb, rfl⟩
      · exact .inr ht
    refine ⟨?_, fun c t ht => ?_, fun c t ht => ?_, fun c t ht => ?_, fun c hc => ?_⟩
    · rw [hstarts]
      exact Table.nodup_put h.keys b new
    · rcases hget c t ht with ⟨rfl, -⟩ | ht
      · exact hb
      · exact h.home c t ht
    · rcases hget c t ht with ⟨-, rfl⟩ | ht
      · exact hndnew
      · exact h.nodup c t ht
    · rcases hget c t ht with ⟨-, rfl⟩ | ht
      · exact fun x hx => hs x (hnew x hx)
      · exact h.small c t ht
    · rw [hstarts]
      by_cases hcb : c = b
      · exact ⟨new, by rw [Table.get?_put, if_pos hcb]⟩
      · rw [Table.get?_put, if_neg hcb]
        rw [hpending] at hc
        split at hc
        · exact h.known c hc
        · rcases List.mem_append.mp hc with hc | hc
          · exact h.known c hc
          · exact absurd (List.mem_singleton.mp hc) hcb

theorem Flow.cost_into {blocks n : Nat} {f : Flow} {s : LockSet} {b : BlockId} (hb : b < blocks)
    (hn : s.length ≤ n) : (f.into s b).cost blocks n ≤ f.cost blocks n := by
  rcases into_cases s f b with ⟨hf, -⟩ | ⟨new, hstarts, hpending, hnew, hcases⟩
  · rw [hf]
  · have hlen : (f.into s b).pending.length ≤ f.pending.length + 1 := by
      rw [hpending]
      split <;> simp
    have hless : ∑ c ∈ Finset.range blocks,
          (((f.into s b).starts.get? c).elim (n + 1) List.length) <
        ∑ c ∈ Finset.range blocks, ((f.starts.get? c).elim (n + 1) List.length) := by
      refine Finset.sum_lt_sum (fun c _ => ?_) ⟨b, Finset.mem_range.mpr hb, ?_⟩
      · rw [hstarts, Table.get?_put]
        split
        · next hcb =>
          subst hcb
          rcases hcases with ⟨hnone, rfl⟩ | ⟨old, hold, -, hlt⟩
          · simp only [hnone, Option.elim_none, Option.elim_some]
            omega
          · simp only [hold, Option.elim_some]
            omega
        · exact Nat.le_refl _
      · rw [hstarts, Table.get?_put, if_pos rfl]
        rcases hcases with ⟨hnone, rfl⟩ | ⟨old, hold, -, hlt⟩
        · simp only [hnone, Option.elim_none, Option.elim_some]
          omega
        · simp only [hold, Option.elim_some]
          exact hlt
    unfold cost
    omega

theorem Flow.foldl_into {f : Flow} (h : f.Within prog p entry) {s : LockSet} {bs : List BlockId}
    (hbs : ∀ b ∈ bs, b ∈ (prog.proc p).blocks) (hc : prog.Coherent) (hnd : s.Nodup)
    (hs : ∀ x ∈ s, x ∈ locksOf prog p entry) :
    (bs.foldl (into s) f).Within prog p entry ∧ f.Refines (bs.foldl (into s) f) ∧
      (∀ b ∈ bs, (bs.foldl (into s) f).Covers b s) ∧
      (bs.foldl (into s) f).cost prog.blocks.size (bound prog p entry) ≤
        f.cost prog.blocks.size (bound prog p entry) := by
  induction bs generalizing f with
  | nil => exact ⟨h, .refl f, by simp, Nat.le_refl _⟩
  | cons b bs ih =>
    obtain ⟨hb, hbs⟩ := List.forall_mem_cons.mp hbs
    obtain ⟨hrefines, hcovers⟩ := into_refines s f b
    obtain ⟨hwithin, hrefines', hcovers', hcost⟩ := ih (h.into hb hnd hs) hbs
    refine ⟨hwithin, hrefines.trans hrefines', ?_, hcost.trans ?_⟩
    · exact List.forall_mem_cons.mpr ⟨hrefines'.covers b s hcovers, hcovers'⟩
    · exact cost_into ((hc.block_iff p b).mp hb).1 (length_le_bound hnd hs)

def Flow.Settled (prog : Program) (release : Table ProcId Release) (f : Flow) (b : BlockId) : Prop :=
  ∀ s, f.starts.get? b = some s →
    b ∈ f.pending ∨ ∀ b', prog.Succ b b' → f.Covers b' (blockEnd prog release b s)

theorem Flow.Settled.refines {f f' : Flow} {b : BlockId} (h : f.Settled prog release b)
    (hr : f.Refines f') : f'.Settled prog release b := by
  intro s hs
  rcases hr.same b with hsame | hpending
  · rw [hsame] at hs
    rcases h s hs with hb | hcovers
    · exact .inl (hr.pending b hb)
    · exact .inr fun b' hb' => hr.covers b' _ (hcovers b' hb')
  · exact .inl hpending

theorem Flow.step_spec (hs : prog.Shaped) {f : Flow} (h : f.Within prog p entry)
    (hset : ∀ b, f.Settled prog release b) (hne : f.pending ≠ []) :
    (f.step prog release).Within prog p entry ∧
      (∀ b, (f.step prog release).Settled prog release b) ∧
      (∀ b s, f.Covers b s → (f.step prog release).Covers b s) ∧
      (f.step prog release).cost prog.blocks.size (bound prog p entry) <
        f.cost prog.blocks.size (bound prog p entry) := by
  unfold step
  split
  · next hnil => exact absurd hnil hne
  next b rest hpending =>
  obtain ⟨s, hb⟩ := h.known b (hpending ▸ List.mem_cons_self)
  have hhome := h.home b s hb
  obtain ⟨hblt, hbp⟩ := (hs.block_iff p b).mp hhome
  have hpopped : Flow.Within prog p entry { f with pending := rest } :=
    ⟨h.keys, h.home, h.nodup, h.small,
      fun c hc => h.known c (hpending ▸ List.mem_cons_of_mem _ hc)⟩
  have hend : ∀ x ∈ blockEnd prog release b s, x ∈ locksOf prog p entry := by
    intro x hx
    rcases mem_after hx with hx | ⟨o, ho, hx⟩
    · exact h.small b s hb x hx
    · refine List.mem_append_right _ (List.mem_filterMap.mpr ⟨o, ?_, hx⟩)
      exact List.mem_flatMap.mpr ⟨b, hhome, ho⟩
  have hsuccs : ∀ c ∈ (prog.block b).succs, c ∈ (prog.proc p).blocks := by
    intro c hc
    obtain ⟨hclt, hcp⟩ := hs.succ b hblt c hc
    exact (hs.block_iff p c).mpr ⟨hclt, hcp.trans hbp⟩
  have hget : (f.starts.get? b).getD [] = s := by rw [hb]; rfl
  rw [hget]
  obtain ⟨hwithin, hrefines, hcovers, hcost⟩ := foldl_into hpopped hsuccs hs.toCoherent
    (nodup_after (h.nodup b s hb) _) hend
  refine ⟨hwithin, fun c => ?_, hrefines.covers, ?_⟩
  · by_cases hcb : c = b
    · subst hcb
      intro s' hs'
      rcases hrefines.same c with hsame | hc
      · cases hb.symm.trans (hsame.symm.trans hs')
        exact .inr hcovers
      · exact .inl hc
    · refine Settled.refines (f := { f with pending := rest }) (fun s' hs' => ?_) hrefines
      refine (hset c s' hs').imp_left fun hc => ?_
      rw [hpending] at hc
      exact (List.mem_cons.mp hc).resolve_left hcb
  · refine Nat.lt_of_le_of_lt hcost ?_
    simp only [cost, hpending, List.length_cons]
    omega

theorem Flow.run_keeps {I : Flow → Prop} (hstep : ∀ f, I f → I (f.step prog release)) {f : Flow}
    (h : I f) (fuel : Nat) : I (run prog release fuel f) := by
  induction fuel generalizing f with
  | zero => exact h
  | succ fuel ih =>
    rw [run]
    split
    · exact h
    · exact ih (hstep f h)

theorem Flow.run_spec (hs : prog.Shaped) {fuel : Nat} {f : Flow} (h : f.Within prog p entry)
    (hset : ∀ b, f.Settled prog release b)
    (hfuel : f.cost prog.blocks.size (bound prog p entry) ≤ fuel) :
    (run prog release fuel f).Within prog p entry ∧
      (∀ b, (run prog release fuel f).Settled prog release b) ∧
      (∀ b s, f.Covers b s → (run prog release fuel f).Covers b s) ∧
      (run prog release fuel f).pending = [] := by
  induction fuel generalizing f with
  | zero =>
    refine ⟨h, hset, fun _ _ hc => hc, List.eq_nil_of_length_eq_zero ?_⟩
    simp only [cost] at hfuel
    simp only [run]
    omega
  | succ fuel ih =>
    rw [run]
    split
    · next hempty => exact ⟨h, hset, fun _ _ hc => hc, List.isEmpty_iff.mp hempty⟩
    · next hempty =>
      obtain ⟨hwithin, hset', hcovers, hcost⟩ := step_spec hs h hset
        fun hnil => hempty (List.isEmpty_iff.mpr hnil)
      obtain ⟨hw, hst, hcov, hp⟩ := ih hwithin hset' (by omega)
      exact ⟨hw, hst, fun b s hc => hcov b s (hcovers b s hc), hp⟩

/-- The lock sets at the starts of blocks: the entry starts with no more than it is given, and every
successor of a block with no more than the block leaves. -/
structure Starts (prog : Program) (release : Table ProcId Release) (p : ProcId) (entry : LockSet)
    (starts : Table BlockId LockSet) : Prop where
  keys : starts.keys.Nodup
  home : ∀ b s, starts.get? b = some s → b ∈ (prog.proc p).blocks
  nodup : ∀ b s, starts.get? b = some s → s.Nodup
  first : ∃ s, starts.get? (prog.entryBlock p) = some s ∧ ∀ x ∈ s, x ∈ entry
  next : ∀ b s, starts.get? b = some s → ∀ b', prog.Succ b b' →
    ∃ s', starts.get? b' = some s' ∧ ∀ x ∈ s', x ∈ blockEnd prog release b s

def Flow.initial (prog : Program) (p : ProcId) (entry : LockSet) : Flow :=
  ⟨({} : Table BlockId LockSet).put (prog.entryBlock p) entry, [prog.entryBlock p]⟩

theorem Flow.get?_initial {c : BlockId} {s : LockSet} :
    (initial prog p entry).starts.get? c = some s ↔ c = prog.entryBlock p ∧ s = entry := by
  show (({} : Table BlockId LockSet).put (prog.entryBlock p) entry).get? c = some s ↔ _
  rw [Table.get?_put]
  split
  · next hcb => simp [hcb, eq_comm]
  · next hcb => simp [hcb]

theorem Flow.cost_initial :
    (initial prog p entry).cost prog.blocks.size (bound prog p entry) ≤ flowFuel prog p entry := by
  have hsum : ∑ c ∈ Finset.range prog.blocks.size,
      (((initial prog p entry).starts.get? c).elim (bound prog p entry + 1) List.length) ≤
        prog.blocks.size * (bound prog p entry + 1) := by
    refine (Finset.sum_le_card_nsmul _ _ (bound prog p entry + 1) fun c _ => ?_).trans ?_
    · cases hc : (initial prog p entry).starts.get? c with
      | none => simp
      | some s =>
        rw [(get?_initial.mp hc).2]
        simp only [Option.elim_some, bound]
        omega
    · simp
  have hfuel : flowFuel prog p entry = (prog.blocks.size + 1) * (bound prog p entry + 2) := rfl
  have hone : (initial prog p entry).pending.length = 1 := rfl
  rw [hfuel, Nat.add_mul, Nat.mul_add]
  rw [Nat.mul_add] at hsum
  simp only [cost, hone]
  omega

theorem Flow.run_initial (release : Table ProcId Release) (hs : prog.Shaped)
    (hp : p < prog.procs.size) (hnd : entry.Nodup) :
    let f := run prog release (flowFuel prog p entry) (initial prog p entry)
    f.Within prog p entry ∧ (∀ b, f.Settled prog release b) ∧
      (∀ b s, (initial prog p entry).Covers b s → f.Covers b s) ∧ f.pending = [] := by
  obtain ⟨-, -, -, hlt, hproc, -⟩ := hs.entry_ok hp
  have hkeys : ({} : Table BlockId LockSet).keys.Nodup := List.nodup_nil
  have hwithin : (initial prog p entry).Within prog p entry := by
    refine ⟨Table.nodup_put hkeys _ _, fun c s hc => ?_, fun c s hc => ?_,
      fun c s hc => ?_, fun c hc => ?_⟩
    · rw [(get?_initial.mp hc).1]
      exact (hs.block_iff p _).mpr ⟨hlt, hproc⟩
    · rw [(get?_initial.mp hc).2]
      exact hnd
    · rw [(get?_initial.mp hc).2]
      exact fun x hx => List.mem_append_left _ hx
    · exact ⟨entry, get?_initial.mpr ⟨List.mem_singleton.mp hc, rfl⟩⟩
  exact run_spec hs hwithin
    (fun c s hc => .inl (List.mem_singleton.mpr (get?_initial.mp hc).1)) cost_initial

theorem blockStarts_spec (hs : prog.Shaped) (hp : p < prog.procs.size) (hnd : entry.Nodup) :
    Starts prog release p entry (blockStarts prog release p entry) := by
  obtain ⟨hw, hsettled, hcovers, hpending⟩ := Flow.run_initial release hs hp hnd
  refine ⟨hw.keys, hw.home, hw.nodup, ?_, fun b s hb b' hb' => ?_⟩
  · exact hcovers _ entry ⟨entry, Flow.get?_initial.mpr ⟨rfl, rfl⟩, fun x hx => hx⟩
  · rcases hsettled b s hb with hb | hb
    · rw [hpending] at hb
      cases hb
    · exact hb b' hb'

end LockSets

end YieldPlan
