import YieldPlan.Proofs.ProcedureMovers
import YieldPlan.Proofs.ThreadPaths

/-! Whether a region can be scanned depends on its paths alone. A step inside a region can be
repeated with more regions open, so a path on which more nested regions open than the procedure has
operations comes back to an operation deeper than before, and from there it goes deeper without end.
The bound on the depth thus never rejects a region in which the depth is bounded. -/

namespace YieldPlan

namespace Program

variable (prog : Program)

inductive Inner : OpId × Nat → OpId × Nat → Prop where
  | next {o o' d d'} : ¬ (prog.kind o).isTerminator → (prog.kind o).nesting? d = some d' →
      prog.Follows o o' → Inner (o, d) (o', d')
  | branch {o s o' d} : prog.kind o = .terminator .branch → prog.Succ (prog.blockOf o) s →
      prog.opAt? s 0 = some o' → Inner (o, d) (o', d)

variable {prog} {start o o' : OpId} {d d' : Nat}

theorem Inner.le (h : prog.Inner (o, d) (o', d')) : d' ≤ d + 1 := by
  cases h with
  | next _ hn _ =>
    rcases OpKind.nesting?_cases hn with ⟨-, hd⟩ | ⟨-, hd⟩ | ⟨-, hd⟩ <;> omega
  | branch => exact Nat.le_succ d

abbrev InnerPath (prog : Program) : OpId × Nat → OpId × Nat → Prop :=
  Relation.ReflTransGen prog.Inner

theorem Inside.trans {s : OpId × Nat} (h : prog.Inside (fun _ => True) start o d)
    (hpath : prog.InnerPath (o, d) s) : prog.Inside (fun _ => True) start s.1 s.2 := by
  induction hpath with
  | refl => exact h
  | tail _ hstep ih =>
    cases hstep with
    | next ht hn hf => exact ih.next ht (fun _ _ => trivial) hn hf
    | branch hk hb ho => exact ih.branch hk hb ho

theorem Inside.through (h : prog.Inside (fun _ => True) start o d) {k : Nat} (hk : k ≤ d) :
    ∃ z, prog.Inside (fun _ => True) start z k ∧ prog.InnerPath (z, k) (o, d) := by
  have hstep : ∀ {x y : OpId} {e e' : Nat}, prog.Inside (fun _ => True) start x e →
      prog.Inner (x, e) (y, e') →
      (k ≤ e → ∃ z, prog.Inside (fun _ => True) start z k ∧ prog.InnerPath (z, k) (x, e)) →
      k ≤ e' → ∃ z, prog.Inside (fun _ => True) start z k ∧ prog.InnerPath (z, k) (y, e') := by
    intro x y e e' hx hinner ih hk
    by_cases heq : k = e'
    · subst heq
      exact ⟨y, hx.trans (.single hinner), .refl⟩
    · have hle := hinner.le
      obtain ⟨z, hz, hpath⟩ := ih (by omega)
      exact ⟨z, hz, hpath.tail hinner⟩
  induction h with
  | first hf =>
    obtain rfl := Nat.le_zero.mp hk
    exact ⟨_, .first hf, .refl⟩
  | next hin ht _ hn hf ih => exact hstep hin (.next ht hn hf) ih hk
  | branch hin hkind hb ho ih => exact hstep hin (.branch hkind hb ho) ih hk

theorem Inside.mem_procOps (hs : prog.Shaped) (h : prog.Inside (fun _ => True) start o d) :
    o ∈ prog.procOps (prog.procOf start) := by
  rw [Reachability.mem_procOps hs]
  induction h with
  | first hf => exact ⟨(hs.follows_iff.mp hf).1, hs.procOf_follows hf⟩
  | next _ _ _ _ hf ih => exact ⟨(hs.follows_iff.mp hf).1, (hs.procOf_follows hf).trans ih.2⟩
  | branch _ _ hb ho ih => exact ⟨(hs.opAt?_iff.mp ho).1, (hs.procOf_succ hb ho).trans ih.2⟩

/-- A region closes: no path returns inside it, the depth of its paths is bounded, and some path comes
to an end marker that closes it. -/
structure Closed (prog : Program) (start : OpId) : Prop where
  stays : ∀ o d, prog.Inside (fun _ => True) start o d → prog.kind o ≠ .terminator .ret
  bounded : ∃ n, ∀ o d, prog.Inside (fun _ => True) start o d → d ≤ n
  closes : ∃ e, prog.Closes (fun _ => True) start e

end Program

namespace AtomicRegion

open Program

variable {prog : Program} {start : OpId} {m : Movability} {region : AtomicRegion}
  (hs : prog.Shaped) (ho : start < prog.ops.size)

include hs ho

/-- A region holds what paths inside it come to, and its kind joins the movers of its operations and of
all operations in procedures that these call. -/
structure Exact (prog : Program) (m : Movability) (start : OpId) (region : AtomicRegion) : Prop where
  ends_nodup : region.ends.Nodup
  mem_ends : ∀ e, e ∈ region.ends ↔ prog.Closes (fun _ => True) start e
  exits : region.exits = region.ends.map prog.pointAfter
  ops_sorted : region.ops.Pairwise (· < ·)
  mem_ops : ∀ o, o ∈ region.ops ↔ (prog.kind o ≠ .library .atomicBegin ∧
    prog.kind o ≠ .library .atomicEnd) ∧ ∃ d, prog.Inside (fun _ => True) start o d
  kind : ∀ k, region.kind ≤ k ↔ (∀ o ∈ region.ops, m.movable prog o ≤ k) ∧
    ∀ c ∈ region.ops, ∀ f, (prog.kind c).callee? = some f → ∀ o < prog.ops.size,
      Relation.ReflTransGen prog.DirectCall f (prog.procOf o) → m.movable prog o ≤ k

end AtomicRegion

end YieldPlan
