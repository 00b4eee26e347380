import YieldPlan.Proofs.LockMeet

/-! Along every path of a thread, the thread holds each lock of the set at the operation that it
comes to. A call hands its set on to the callee, and after a return the caller keeps what neither
the callee nor anything that it called has unlocked. The thread must start with the empty set: where
only procedures that never run call its body, their locks flow into it. -/

namespace YieldPlan

namespace Program

variable (prog : Program)

/-- A path of a thread from the entry of its procedure: the operations that ran, and the stack. -/
inductive Path (root : ProcId) : List OpId → List OpId → Prop where
  | start {e} : prog.entryOp? root = some e → Path root [] [e]
  | step {ran o calls s} : Path root ran (o :: calls) → prog.ThreadStep (o :: calls) s →
      Path root (ran ++ [o]) s

/-- An operation does not unlock a location, nor an unknown one. -/
def Leaves (o : OpId) (l : Location) : Prop :=
  ∀ l', (prog.kind o).released? = some l' → l' ≠ .unknown ∧ l' ≠ l

/-- The lock was acquired in its mode, and nothing that may unlock it ran since. -/
def Holds (ran : List OpId) (x : HeldLock) : Prop :=
  ∃ before a after, ran = before ++ a :: after ∧ (prog.kind a).acquired? = some x ∧
    ∀ o ∈ after, prog.Leaves o x.lock

def Sound (held : Table OpId LockSet) (ran : List OpId) (o : OpId) : Prop :=
  ∃ s, held.get? o = some s ∧ ∀ x ∈ s, prog.Holds ran x

/-- The sets were right at every call that a thread is in. Since a call only procedures ran that its
callee calls, directly or through others. -/
def Tracked (held : Table OpId LockSet) : List OpId → List OpId → Prop
  | [], _ => False
  | [o], ran => prog.Sound held ran o
  | o :: c :: calls, ran => prog.Sound held ran o ∧ ∃ earlier during, ran = earlier ++ c :: during ∧
      (∀ u ∈ during, u < prog.ops.size ∧
        Relation.ReflTransGen prog.DirectCall (prog.procOf o) (prog.procOf u)) ∧
      Tracked held (c :: calls) earlier

variable {prog} {root : ProcId} {held : Table OpId LockSet} {ran : List OpId}

theorem Path.stack {s : List OpId} (h : prog.Path root ran s) : prog.Stack root s := by
  induction h with
  | start he => exact .start he
  | step _ hstep ih => exact ih.step hstep

theorem Holds.append {x : HeldLock} {more : List OpId} (h : prog.Holds ran x)
    (hmore : ∀ o ∈ more, prog.Leaves o x.lock) : prog.Holds (ran ++ more) x := by
  obtain ⟨before, a, after, rfl, ha, hafter⟩ := h
  refine ⟨before, a, after ++ more, by simp, ha, fun o ho => ?_⟩
  rcases List.mem_append.mp ho with ho | ho
  · exact hafter o ho
  · exact hmore o ho

theorem holds_lockStep {release : Table ProcId Release} {o : OpId} {s : LockSet}
    (hs : ∀ x ∈ s, prog.Holds ran x) {x : HeldLock} (hx : x ∈ (prog.kind o).lockStep release s) :
    prog.Holds (ran ++ [o]) x := by
  rcases OpKind.mem_lockStep hx with hx | ⟨hx, hleaves, -⟩
  · exact ⟨ran, o, [], rfl, hx, by simp⟩
  · refine (hs x hx).append fun u hu => ?_
    rw [List.mem_singleton.mp hu]
    exact hleaves

theorem Tracked.sound {o : OpId} {calls : List OpId} (h : prog.Tracked held (o :: calls) ran) :
    prog.Sound held ran o := by
  cases calls with
  | nil => exact h
  | cons c calls => exact h.1

theorem Tracked.advance {o o' : OpId} {calls more : List OpId}
    (h : prog.Tracked held (o :: calls) ran) (hproc : prog.procOf o' = prog.procOf o)
    (hmore : ∀ u ∈ more, u < prog.ops.size ∧
      Relation.ReflTransGen prog.DirectCall (prog.procOf o) (prog.procOf u))
    (hsound : prog.Sound held (ran ++ more) o') : prog.Tracked held (o' :: calls) (ran ++ more) := by
  cases calls with
  | nil => exact hsound
  | cons c calls =>
    obtain ⟨-, earlier, during, rfl, hduring, hrest⟩ := h
    refine ⟨hsound, earlier, during ++ more, by simp, fun u hu => ?_, hrest⟩
    rw [hproc]
    rcases List.mem_append.mp hu with hu | hu
    · exact hduring u hu
    · exact hmore u hu

end Program

namespace LockSets

open Program

variable {prog : Program} {release : Table ProcId Release} {g : Progress} {root : ProcId}
  {ran : List OpId}

/-- The thread of the procedure starts with nothing: nothing calls it, or a creation of it has a set. -/
def Bare (prog : Program) (held : Table OpId LockSet) (p : ProcId) : Prop :=
  (∀ o < prog.ops.size, (prog.kind o).callee? ≠ some p) ∨
    ∃ a s, held.get? a = some s ∧ (prog.kind a).spawn? = some p

/-- All operations that paths come to have sets, and each set hands on no more than its operation
leaves. -/
structure Solved (prog : Program) (release : Table ProcId Release) (g : Progress) : Prop where
  defined : ∀ o < prog.ops.size, (∃ ran, prog.LocalPath (prog.procOf o) ran o) →
    ∃ s, g.held.get? o = some s
  next : ∀ o s o', g.held.get? o = some s → prog.Follows o o' →
    ∃ s', g.held.get? o' = some s' ∧ ∀ x ∈ s', x ∈ (prog.kind o).lockStep release s
  branch : ∀ o s b o', g.held.get? o = some s → prog.kind o = .terminator .branch →
    prog.Succ (prog.blockOf o) b → prog.opAt? b 0 = some o' →
    ∃ s', g.held.get? o' = some s' ∧ ∀ x ∈ s', x ∈ s
  called : ∀ c s q e, g.held.get? c = some s → prog.kind c = .call q → prog.entryOp? q = some e →
    ∃ s', g.held.get? e = some s' ∧ ∀ x ∈ s', x ∈ s
  bare : ∀ p e, Bare prog g.held p → prog.entryOp? p = some e → g.held.get? e = some []

theorem solved_of_meetsPaths (hs : prog.Shaped)
    (hrelease : ∀ f < prog.procs.size, ReleasesExactly prog release f)
    (htargets : ∀ o < prog.ops.size, ∀ f, (prog.kind o).callEdge? = some f → f < prog.procs.size)
    (h : prog.MeetsPaths g.held.get?) : Solved prog release g where
  defined o ho hpath := (h.defined o).mpr ((inReach_iff hs ho).mpr hpath)
  next o s o' ho hf := by
    obtain ⟨s', ho', hsub⟩ := h.next hs ho hf
    exact ⟨s', ho', fun x hx => (mem_lockStep_iff hrelease htargets).mpr (hsub x hx)⟩
  branch o s b o' ho hk hsucc ho' := by
    obtain ⟨s', hget, hsub⟩ := h.branch hs ho hk hsucc ho'
    refine ⟨s', hget, fun x hx => (hsub x hx).elim (fun hacq => ?_) And.left⟩
    rw [hk] at hacq
    cases hacq
  called c s q e hc hk he := by
    obtain ⟨s', he', hsub⟩ := h.entry hs he
    refine ⟨s', he', fun x hx => ?_⟩
    obtain ⟨t, ht, hxt⟩ := (hsub x hx).2.2 c ((h.defined c).mp ⟨s, hc⟩) (OpKind.callee?_eq_some.mpr hk)
    obtain rfl := Option.some.inj (hc.symm.trans ht)
    exact hxt
  bare p e hbare he := by
    obtain ⟨s, he', hsub⟩ := h.entry hs he
    have hnil : s = [] := by
      apply List.eq_nil_iff_forall_not_mem.mpr
      intro x hx
      obtain ⟨hspawns, ⟨c, hc, hk⟩, -⟩ := hsub x hx
      rcases hbare with hcalls | ⟨a, t, ha, hspawn⟩
      · exact hcalls c hc.1 hk
      · exact hspawns a ((h.defined a).mp ⟨t, ha⟩) hspawn
    rw [he', hnil]

/-- A return keeps all sets right: what ran since the call has released no more than the releases of the
callee say. -/
theorem Solved.tracked_ret (hs : prog.Shaped)
    (h : Solved prog release g)
    (hrelease : ∀ p < prog.procs.size, Summarized prog release p) {o c o' : OpId}
    {calls : List OpId} (hstack : prog.Stack root (o :: c :: calls))
    (ht : prog.Tracked g.held (o :: c :: calls) ran) (hf : prog.Follows c o') :
    prog.Tracked g.held (o' :: calls) (ran ++ [o]) := by
  obtain ⟨-, earlier, during, rfl, hduring, hrest⟩ := ht
  obtain ⟨f, e, hkc, he, hlevel⟩ := hstack.1
  obtain ⟨hflt, helt, hef⟩ := hs.entryOp_ok he
  have hof : prog.procOf o = f := (hs.procOf_level helt hlevel).2.trans hef
  have holt := (hstack.calls hs o List.mem_cons_self).1
  have hclt := (hstack.calls hs c (by simp)).1
  obtain ⟨r, hr, hcovers⟩ := hrelease f hflt
  obtain ⟨t, hheld, hsub⟩ := hrest.sound
  obtain ⟨t', hheld', hsub'⟩ := h.next c t o' hheld hf
  -- What ran since the call is the call itself, what its callee led to, and the return.
  have hsince : ∀ u ∈ c :: (during ++ [o]), u < prog.ops.size ∧
      Relation.ReflTransGen prog.DirectCall (prog.procOf c) (prog.procOf u) ∧
      (u = c ∨ Relation.ReflTransGen prog.DirectCall f (prog.procOf u)) := by
    have hcall : prog.DirectCall (prog.procOf c) f := ⟨c, hclt, rfl, OpKind.callee?_eq_some.mpr hkc⟩
    have hinside : ∀ u ∈ during ++ [o], u < prog.ops.size ∧
        Relation.ReflTransGen prog.DirectCall f (prog.procOf u) := by
      intro u hu
      rw [← hof]
      rcases List.mem_append.mp hu with hu | hu
      · exact hduring u hu
      · rw [List.mem_singleton.mp hu]
        exact ⟨holt, .refl⟩
    refine List.forall_mem_cons.mpr ⟨⟨hclt, .refl, .inl rfl⟩, fun u hu => ?_⟩
    obtain ⟨hult, hpath⟩ := hinside u hu
    exact ⟨hult, .head hcall hpath, .inr hpath⟩
  have hassoc : earlier ++ c :: during ++ [o] = earlier ++ c :: (during ++ [o]) := by simp
  rw [hassoc]
  refine hrest.advance (hs.procOf_follows hf) (fun u hu => ⟨(hsince u hu).1, (hsince u hu).2.1⟩)
    ⟨t', hheld', fun x hx => ?_⟩
  rcases OpKind.mem_lockStep (hsub' x hx) with hacq | ⟨hx, -, hspares⟩
  · rw [hkc] at hacq
    cases hacq
  · refine (hsub x hx).append fun u hu l hl => ?_
    obtain ⟨hult, -, rfl | hpath⟩ := hsince u hu
    · rw [hkc] at hl
      cases hl
    · exact hcovers u hult hpath l hl x.lock (hspares f r hkc hr)

/-- One step of a thread keeps all sets right. -/
theorem Solved.tracked_step (hs : prog.Shaped)
    (h : Solved prog release g)
    (hrelease : ∀ p < prog.procs.size, Summarized prog release p) {o : OpId} {calls s : List OpId}
    (hstack : prog.Stack root (o :: calls)) (ht : prog.Tracked g.held (o :: calls) ran)
    (hstep : prog.ThreadStep (o :: calls) s) : prog.Tracked g.held s (ran ++ [o]) := by
  have holt := (hstack.calls hs o List.mem_cons_self).1
  have hself : ∀ u ∈ [o], u < prog.ops.size ∧
      Relation.ReflTransGen prog.DirectCall (prog.procOf o) (prog.procOf u) := by
    intro u hu
    rw [List.mem_singleton.mp hu]
    exact ⟨holt, .refl⟩
  obtain ⟨t, hheld, hholds⟩ := ht.sound
  cases hstep with
  | pass hterm hcall hf =>
    obtain ⟨t', hheld', hsub⟩ := h.next o t _ hheld hf
    exact ht.advance (hs.procOf_follows hf) hself
      ⟨t', hheld', fun x hx => holds_lockStep hholds (hsub x hx)⟩
  | branch hk hb ho' =>
    obtain ⟨t', hheld', hsub⟩ := h.branch o t _ _ hheld hk hb ho'
    refine ht.advance (hs.procOf_succ hb ho') hself ⟨t', hheld', fun x hx => ?_⟩
    refine (hholds x (hsub x hx)).append fun u hu => ?_
    rw [List.mem_singleton.mp hu, Leaves, hk]
    simp [OpKind.released?]
  | @call _ f e _ hk he =>
    obtain ⟨t', hheld', hsub⟩ := h.called o t f e hheld hk he
    refine ⟨⟨t', hheld', fun x hx => ?_⟩, ran, [], rfl, by simp, ht⟩
    refine (hholds x (hsub x hx)).append fun u hu => ?_
    rw [List.mem_singleton.mp hu, Leaves, hk]
    simp [OpKind.released?]
  | ret _ hf => exact h.tracked_ret hs hrelease hstack ht hf

/-- Every path of a thread that starts with nothing keeps all sets right. -/
theorem Solved.tracked (hs : prog.Shaped)
    (h : Solved prog release g)
    (hrelease : ∀ p < prog.procs.size, Summarized prog release p)
    (hbare : Bare prog g.held root) {s : List OpId} (hpath : prog.Path root ran s) :
    prog.Tracked g.held s ran := by
  induction hpath with
  | start he => exact ⟨[], h.bare root _ hbare he, by simp⟩
  | step hbefore hstep ih => exact h.tracked_step hs hrelease hbefore.stack ih hstep

theorem Solved.exists_held (hs : prog.Shaped) (h : Solved prog release g) {o : OpId}
    (ho : o < prog.ops.size)
    (hb : Relation.ReflTransGen prog.Succ (prog.entryBlock (prog.procOf o)) (prog.blockOf o)) :
    ∃ s, g.held.get? o = some s :=
  h.defined o ho ((inReach_iff hs ho).mp ⟨ho, hb⟩)

end LockSets

open LockSets in
theorem Analyzed.locks_solved {prog : Program} {mayAlias : AliasOracle} {cx : Analysis}
    (h : Analyzed prog mayAlias cx) (hc : prog.Coherent) : ∃ release g, cx.locks.held = g.held ∧
      Solved prog release g ∧ ∀ p < prog.procs.size, Summarized prog release p := by
  have hs := h.shaped hc
  obtain ⟨hnd, hmem, hcallees⟩ := h.order_spec hc
  have hrelease : ∀ f < prog.procs.size, ReleasesExactly prog (releases prog cx.order) f :=
    fun f hf => releases_exact hs hcallees f ((hmem f).mpr hf)
  have hmeets : prog.MeetsPaths (cx.order.reverse.foldl
      (Progress.addProc prog (releases prog cx.order)) {}).held.get? :=
    meetsPaths_foldl hs h.targets hnd hmem hcallees (fun _ l => l) fun _ l => .refl l
  have hlocks := h.locks
  simp only [Program.lockSets] at hlocks
  split at hlocks
  · have hheld := congrArg LockSets.held (Except.ok.inj hlocks)
    exact ⟨_, _, hheld.symm, solved_of_meetsPaths hs hrelease h.targets hmeets,
      fun p hp => (hrelease p hp).summarized⟩
  · cases hlocks

/-- Along every path of a thread, the locks of the set at the operation that comes next are held. The
body of the thread must not be called by any operation, or some creation of the thread must be in a
block that the entry of its procedure leads to. -/
theorem locks_in_sets_are_held {prog : Program} (hc : prog.Coherent) {mayAlias : AliasOracle}
    {cx : Analysis} (h : (prog.analyze mayAlias).result = .ok cx) {root : ProcId}
    (hbare : (∀ o < prog.ops.size, (prog.kind o).callee? ≠ some root) ∨
      ∃ a < prog.ops.size, (prog.kind a).spawn? = some root ∧
        Relation.ReflTransGen prog.Succ (prog.entryBlock (prog.procOf a)) (prog.blockOf a))
    {ran calls : List OpId} {o : OpId} (hpath : prog.Path root ran (o :: calls)) :
    ∃ s, cx.locks.held? o = some s ∧ ∀ x ∈ s, prog.Holds ran x := by
  have ha := Program.analyze_ok h
  have hs := ha.shaped hc
  obtain ⟨release, g, hheld, hsolved, hrelease⟩ := ha.locks_solved hc
  rw [LockSets.held?, hheld]
  refine (hsolved.tracked hs hrelease (hbare.imp_right ?_) hpath).sound
  rintro ⟨a, halt, hspawn, hblock⟩
  obtain ⟨s, hs⟩ := hsolved.exists_held hs halt hblock
  exact ⟨a, s, hs, hspawn⟩

def BuildStep.lockedCallSteps : List BuildStep :=
  [.proc "main", .proc "helper", .block 0 "entry", .block 1 "entry",
    .op 0 (.library (.mutexLock (.named "m"))), .op 0 (.call 1),
    .op 0 (.memory .write (.named "x")), .op 0 (.library (.mutexUnlock (.named "m"))),
    .op 0 (.terminator .ret), .op 1 (.memory .write (.named "y")), .op 1 (.terminator .ret)]

def Program.lockedCall : Program :=
  ((BuildStep.applyAll {} BuildStep.lockedCallSteps).toOption.getD default).1

theorem Program.built_lockedCall : Program.lockedCall.Built := by
  refine .inl ⟨BuildStep.lockedCallSteps, .lockedCall, [0, 1, 0, 1, 0, 1, 2, 3, 4, 5, 6], ?_, ?_⟩
  · decide +kernel
  · decide +kernel

theorem Program.lockedCall_path : Program.lockedCall.Path 0 [0, 1, 5, 6] [2] := by
  have hlock : Program.lockedCall.Follows 0 1 := by
    unfold Program.Follows
    decide +kernel
  have hwrite : Program.lockedCall.Follows 5 6 := by
    unfold Program.Follows
    decide +kernel
  have hback : Program.lockedCall.Follows 1 2 := by
    unfold Program.Follows
    decide +kernel
  have h₀ : Program.lockedCall.Path 0 [] [0] := .start (by decide +kernel)
  have h₁ : Program.lockedCall.Path 0 [0] [1] :=
    h₀.step (.pass (by decide +kernel) (by decide +kernel) hlock)
  have h₂ : Program.lockedCall.Path 0 [0, 1] [5, 1] :=
    h₁.step (.call (f := 1) (by decide +kernel) (by decide +kernel))
  have h₃ : Program.lockedCall.Path 0 [0, 1, 5] [6, 1] :=
    h₂.step (.pass (by decide +kernel) (by decide +kernel) hwrite)
  exact h₃.step (.ret (by decide +kernel) hback)

theorem lock_is_held_after_call :
    ∃ cx, (Program.lockedCall.analyze locationAliasing).result = .ok cx ∧
      Program.lockedCall.Path 0 [0, 1, 5, 6] [2] ∧
      cx.locks.held? 2 = some [⟨.named "m", true⟩] ∧
      Program.lockedCall.Holds [0, 1, 5, 6] ⟨.named "m", true⟩ := by
  have hok := Checked.ok_of_toOption
    (x := (Program.lockedCall.analyze locationAliasing).result) (by decide +kernel)
  have hset : ((Program.lockedCall.analyze locationAliasing).result.toOption.getD
      default).locks.held? 2 = some [⟨.named "m", true⟩] := by decide +kernel
  obtain ⟨s, hs, hholds⟩ := locks_in_sets_are_held Program.built_lockedCall.coherent.1 hok
    (.inl (by decide +kernel)) Program.lockedCall_path
  refine ⟨_, hok, Program.lockedCall_path, hset, hholds _ ?_⟩
  rw [Option.some.inj (hs.symm.trans hset)]
  exact List.mem_singleton_self _

def BuildStep.deadCallerSteps : List BuildStep :=
  [.entrypoint "worker", .proc "main", .proc "worker", .block 0 "entry", .block 1 "entry",
    .op 0 (.library (.mutexLock (.named "m"))), .op 0 (.call 1),
    .op 0 (.library (.mutexUnlock (.named "m"))), .op 0 (.terminator .ret),
    .op 1 (.memory .write (.named "x")), .op 1 (.terminator .ret)]

def Program.deadCaller : Program :=
  ((BuildStep.applyAll {} BuildStep.deadCallerSteps).toOption.getD default).1

theorem Program.built_deadCaller : Program.deadCaller.Built := by
  refine .inl ⟨BuildStep.deadCallerSteps, .deadCaller, [0, 0, 1, 0, 1, 0, 1, 2, 3, 4, 5], ?_, ?_⟩
  · decide +kernel
  · decide +kernel

/-- Without the condition the entrypoint starts with a lock that only a procedure which never runs
has acquired. -/
theorem locks_of_dead_caller_are_not_held :
    Program.deadCaller.Built ∧ ∃ cx, (Program.deadCaller.analyze locationAliasing).result = .ok cx ∧
      cx.threads.list.map (·.proc) = [1] ∧ Program.deadCaller.Path 1 [] [4] ∧
      cx.locks.held? 4 = some [⟨.named "m", true⟩] ∧
      ¬ Program.deadCaller.Holds [] ⟨.named "m", true⟩ := by
  have hok := Checked.ok_of_toOption
    (x := (Program.deadCaller.analyze locationAliasing).result) (by decide +kernel)
  refine ⟨Program.built_deadCaller, _, hok, by decide +kernel, .start (by decide +kernel),
    by decide +kernel, ?_⟩
  rintro ⟨before, a, after, hran, -⟩
  simp at hran

end YieldPlan
