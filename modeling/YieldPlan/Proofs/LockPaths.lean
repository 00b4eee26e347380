import YieldPlan.Proofs.LockEntries
import YieldPlan.Proofs.ThreadPaths

/-! What an operation does to the locks that are held is the same for every lock, so it makes no
difference whether sets are intersected before the operations of a block or after them. The flow of
lock sets in a procedure therefore ends with more than a fixed point: at each operation it has
exactly the locks that all paths from the entry bring there, and it has no set where no path comes.
-/

namespace YieldPlan

namespace Program

variable (prog : Program)

/-- An operation may take a lock away: it unlocks it, or a lock that is not known, or it calls a
procedure in which that happens. -/
def Loses (o : OpId) (x : Location) : Prop :=
  (∃ l, (prog.kind o).released? = some l ∧ (l = .unknown ∨ l = x)) ∨
    ∃ f, (prog.kind o).callee? = some f ∧ prog.Unlocks f x

/-- What is held after an operation, given what is held before it. -/
def heldNext (held : HeldLock → Prop) (o : OpId) (x : HeldLock) : Prop :=
  (prog.kind o).acquired? = some x ∨ held x ∧ ¬ prog.Loses o x.lock

/-- What is held after some operations. -/
def heldAfter (held : HeldLock → Prop) (ran : List OpId) : HeldLock → Prop :=
  ran.foldl prog.heldNext held

/-- A path in a procedure from its entry, with the operations that it has passed. It steps over
calls. -/
inductive LocalPath (p : ProcId) : List OpId → OpId → Prop where
  | start {e} : prog.entryOp? p = some e → LocalPath p [] e
  | next {ran o o'} : LocalPath p ran o → ¬ (prog.kind o).isTerminator → prog.Follows o o' →
      LocalPath p (ran ++ [o]) o'
  | branch {ran o s o'} : LocalPath p ran o → prog.kind o = .terminator .branch →
      prog.Succ (prog.blockOf o) s → prog.opAt? s 0 = some o' → LocalPath p (ran ++ [o]) o'

/-- What all paths from the entry bring to an operation. -/
def HeldOnPaths (p : ProcId) (held : HeldLock → Prop) (o : OpId) (x : HeldLock) : Prop :=
  ∀ ran, prog.LocalPath p ran o → prog.heldAfter held ran x

variable {prog} {held held' : HeldLock → Prop} {o : OpId} {x : HeldLock}

theorem heldAfter_append (ran more : List OpId) :
    prog.heldAfter held (ran ++ more) = prog.heldAfter (prog.heldAfter held ran) more :=
  List.foldl_append

theorem heldNext_mono (h : ∀ x, held x → held' x) (hx : prog.heldNext held o x) :
    prog.heldNext held' o x :=
  hx.imp_right fun hkept => ⟨h x hkept.1, hkept.2⟩

theorem heldAfter_mono {ran : List OpId} (h : ∀ x, held x → held' x)
    (hx : prog.heldAfter held ran x) : prog.heldAfter held' ran x := by
  induction ran generalizing held held' with
  | nil => exact h x hx
  | cons o ran ih => exact ih (fun y hy => heldNext_mono h hy) hx

theorem heldAfter_forall {ι : Type} [Nonempty ι] {parts : ι → HeldLock → Prop} {ran : List OpId} :
    prog.heldAfter (fun x => ∀ i, parts i x) ran x ↔ ∀ i, prog.heldAfter (parts i) ran x := by
  induction ran generalizing parts with
  | nil => exact Iff.rfl
  | cons o ran ih =>
    have hstep : prog.heldNext (fun x => ∀ i, parts i x) o =
        fun x => ∀ i, prog.heldNext (parts i) o x := by
      funext y
      unfold heldNext
      rw [forall_or_left, forall_and, forall_const]
    show prog.heldAfter (prog.heldNext _ o) ran x ↔ _
    rw [hstep]
    exact ih

theorem HeldOnPaths.heldAfter {p : ProcId} {first : OpId} {ops : List OpId}
    (h : prog.HeldOnPaths p held o x) (hsome : ∃ ran, prog.LocalPath p ran first)
    (hmore : ∀ ran, prog.LocalPath p ran first → prog.LocalPath p (ran ++ ops) o) :
    prog.heldAfter (prog.HeldOnPaths p held first) ops x := by
  obtain ⟨ran₀, h₀⟩ := hsome
  have hnonempty : Nonempty { ran // prog.LocalPath p ran first } := ⟨⟨ran₀, h₀⟩⟩
  have hparts : prog.HeldOnPaths p held first =
      fun y => ∀ i : { ran // prog.LocalPath p ran first }, prog.heldAfter held i.1 y :=
    funext fun y => propext ⟨fun hy i => hy i.1 i.2, fun hy ran hran => hy ⟨ran, hran⟩⟩
  rw [hparts, heldAfter_forall]
  rintro ⟨ran, hran⟩
  rw [← heldAfter_append]
  exact h _ (hmore ran hran)

theorem Shaped.ops_of_terminator (hs : prog.Shaped) (ho : o < prog.ops.size)
    (hk : (prog.kind o).isTerminator) : (prog.block (prog.blockOf o)).ops =
      (prog.block (prog.blockOf o)).ops.take (prog.op o).position ++ [o] := by
  obtain ⟨hlt, hget⟩ := List.getElem?_eq_some_iff.mp (hs.opAt?_self ho)
  have hsplit : (prog.block (prog.blockOf o)).ops =
      (prog.block (prog.blockOf o)).ops.take (prog.op o).position ++
        o :: (prog.block (prog.blockOf o)).ops.drop ((prog.op o).position + 1) := by
    conv_lhs => rw [← List.take_append_drop (prog.op o).position (prog.block _).ops]
    rw [List.drop_eq_getElem_cons hlt, hget]
  have hlast := hs.terminator_last ⟨_, hsplit.symm⟩ hk
  rwa [hlast] at hsplit

namespace LocalPath

variable {p : ProcId} {ran : List OpId} {first : OpId} {b s : BlockId}

theorem along (hs : prog.Shaped) (h : prog.LocalPath p ran first)
    (hfirst : prog.opAt? b 0 = some first) {i : Nat} (ho : prog.opAt? b i = some o) :
    prog.LocalPath p (ran ++ (prog.block b).ops.take i) o := by
  induction i generalizing o with
  | zero =>
    obtain rfl := Option.some.inj (hfirst.symm.trans ho)
    rwa [List.take_zero, List.append_nil]
  | succ i ih =>
    obtain ⟨hlt, -⟩ := List.getElem?_eq_some_iff.mp ho
    have hy : prog.opAt? b i = some (prog.block b).ops[i] :=
      List.getElem?_eq_getElem (Nat.lt_of_succ_lt hlt)
    obtain ⟨hylt, hyb, hyi⟩ := hs.opAt?_iff.mp hy
    have hfollows : prog.Follows (prog.block b).ops[i] o := by
      rw [Follows, hyb, hyi]
      exact ho
    have hpath := (ih hy).next (hs.not_isTerminator hylt hfollows) hfollows
    rw [List.append_assoc] at hpath
    rwa [List.take_succ_eq_append_getElem (Nat.lt_of_succ_lt hlt)]

theorem through (hs : prog.Shaped) (h : prog.LocalPath p ran first)
    (hfirst : prog.opAt? b 0 = some first) (hsucc : prog.Succ b s) (ho : prog.opAt? s 0 = some o) :
    prog.LocalPath p (ran ++ (prog.block b).ops) o := by
  obtain ⟨last, hlt, rfl, hk, -⟩ := hs.exists_branch (lt_of_succ hsucc) hsucc
  rw [hs.ops_of_terminator hlt (by rw [hk]; rfl), ← List.append_assoc]
  exact (h.along hs hfirst (hs.opAt?_self hlt)).branch hk hsucc ho

end LocalPath

/-- The operation is in a block that control flow reaches from the entry of its procedure. -/
def InReach (prog : Program) (o : OpId) : Prop :=
  o < prog.ops.size ∧
    Relation.ReflTransGen prog.Succ (prog.entryBlock (prog.procOf o)) (prog.blockOf o)

theorem LocalPath.reach (hs : prog.Shaped) {p : ProcId} {ran : List OpId}
    (h : prog.LocalPath p ran o) :
    o < prog.ops.size ∧ Relation.ReflTransGen prog.Succ (prog.entryBlock p) (prog.blockOf o) := by
  induction h with
  | @start e he =>
    obtain ⟨hp, hlt, -⟩ := hs.entryOp_ok he
    obtain ⟨-, -, hb, -⟩ := hs.entry_ok hp
    rw [entryOp?, hb, Option.bind_some] at he
    exact ⟨hlt, by rw [(hs.opAt?_iff.mp he).2.1]⟩
  | next _ _ hf ih =>
    obtain ⟨hlt, hblock, -⟩ := hs.follows_iff.mp hf
    exact ⟨hlt, hblock ▸ ih.2⟩
  | branch _ _ hsucc ho ih =>
    obtain ⟨hlt, hblock, -⟩ := hs.opAt?_iff.mp ho
    exact ⟨hlt, hblock ▸ ih.2.tail hsucc⟩

theorem inReach_iff (hs : prog.Shaped) (ho : o < prog.ops.size) :
    prog.InReach o ↔ ∃ ran, prog.LocalPath (prog.procOf o) ran o := by
  constructor
  · rintro ⟨-, hreach⟩
    have hfirst : ∀ b, Relation.ReflTransGen prog.Succ (prog.entryBlock (prog.procOf o)) b →
        ∃ first ran, prog.opAt? b 0 = some first ∧ prog.LocalPath (prog.procOf o) ran first := by
      intro b hb
      induction hb with
      | refl =>
        obtain ⟨-, -, hentry, hlt, -⟩ := hs.entry_ok (hs.procOf_lt o ho)
        obtain ⟨first, hfirst⟩ := hs.exists_first hlt
        refine ⟨first, [], hfirst, .start ?_⟩
        rw [entryOp?, hentry, Option.bind_some, hfirst]
      | tail _ hsucc ih =>
        obtain ⟨first, ran, hfirst, hpath⟩ := ih
        obtain ⟨first', hfirst'⟩ := hs.exists_first (hs.succ _ (lt_of_succ hsucc) _ hsucc).1
        exact ⟨first', _, hfirst', hpath.through hs hfirst hsucc hfirst'⟩
    obtain ⟨first, ran, hat, hpath⟩ := hfirst _ hreach
    exact ⟨_, hpath.along hs hat (hs.opAt?_self ho)⟩
  · rintro ⟨ran, hran⟩
    exact hran.reach hs

end Program

namespace LockSets

open Program

variable {prog : Program} {release : Table ProcId Release}

structure Flow.All (P : BlockId → LockSet → Prop) (f : Flow) : Prop where
  starts : ∀ b s, f.starts.get? b = some s → P b s
  known : ∀ b ∈ f.pending, ∃ s, f.starts.get? b = some s

section All

variable {P : BlockId → LockSet → Prop} (hmeet : ∀ b s t, P b s → P b t → P b (s.meet t))
  (hnext : ∀ b s b', P b s → prog.Succ b b' → P b' (blockEnd prog release b s))

include hmeet

theorem Flow.All.into {f : Flow} (h : f.All P) {b : BlockId} {s : LockSet} (hs : P b s) :
    (f.into s b).All P := by
  rcases into_cases s f b with ⟨hf, -⟩ | ⟨new, hstarts, hpending, -, hcases⟩
  · rwa [hf]
  · have hnew : P b new := by
      rcases hcases with ⟨-, rfl⟩ | ⟨old, hold, rfl, -⟩
      · exact hs
      · exact hmeet b old s (h.starts b old hold) hs
    constructor
    · intro c t ht
      rw [hstarts, Table.get?_put] at ht
      split at ht
      · next hcb =>
        cases ht
        exact hcb ▸ hnew
      · exact h.starts c t ht
    · intro c hc
      rw [hstarts, Table.get?_put]
      by_cases hcb : c = b
      · exact ⟨new, if_pos hcb⟩
      · rw [if_neg hcb]
        apply h.known
        rw [hpending] at hc
        split at hc
        · exact hc
        · exact (List.mem_append.mp hc).resolve_right fun hlast =>
            hcb (List.mem_singleton.mp hlast)

theorem Flow.All.foldl_into {f : Flow} (h : f.All P) {s : LockSet} {bs : List BlockId}
    (hbs : ∀ b ∈ bs, P b s) : (bs.foldl (Flow.into s) f).All P := by
  induction bs generalizing f with
  | nil => exact h
  | cons b bs ih =>
    obtain ⟨hb, hbs⟩ := List.forall_mem_cons.mp hbs
    exact ih (h.into hmeet hb) hbs

include hnext

theorem Flow.All.step {f : Flow} (h : f.All P) : (f.step prog release).All P := by
  unfold Flow.step
  split
  · exact h
  · next b rest hpending =>
    obtain ⟨s, hb⟩ := h.known b (hpending ▸ List.mem_cons_self)
    have hpopped : Flow.All P { f with pending := rest } :=
      ⟨h.starts, fun c hc => h.known c (hpending ▸ List.mem_cons_of_mem _ hc)⟩
    rw [hb, Option.getD_some]
    exact hpopped.foldl_into hmeet fun c hc => hnext b s c (h.starts b s hb) hc

theorem blockStarts_all {p : ProcId} {entry : LockSet} (hentry : P (prog.entryBlock p) entry) :
    ∀ b s, (blockStarts prog release p entry).get? b = some s → P b s := by
  have hinitial : (Flow.initial prog p entry).All P := by
    constructor
    · intro b s hb
      obtain ⟨rfl, rfl⟩ := Flow.get?_initial.mp hb
      exact hentry
    · intro b hb
      exact ⟨entry, Flow.get?_initial.mpr ⟨List.mem_singleton.mp hb, rfl⟩⟩
  exact (Flow.run_keeps (fun f hf => hf.step hmeet hnext) hinitial _).starts

end All

variable (hrelease : ∀ f < prog.procs.size, ReleasesExactly prog release f)
  (htargets : ∀ o < prog.ops.size, ∀ f, (prog.kind o).callEdge? = some f → f < prog.procs.size)

include hrelease htargets

theorem mem_lockStep_iff {s : LockSet} {o : OpId} {x : HeldLock} :
    x ∈ (prog.kind o).lockStep release s ↔ prog.heldNext (· ∈ s) o x := by
  have hcallee : (∀ f r, prog.kind o = .call f → release.get? f = some r → r.Spares x.lock) ↔
      ¬ ∃ f, (prog.kind o).callee? = some f ∧ prog.Unlocks f x.lock := by
    constructor
    · rintro hspares ⟨f, hf, hunlocks⟩
      have hk := OpKind.callee?_eq_some.mp hf
      have hlt : o < prog.ops.size := lt_of_kind_ne (by simp [hk])
      obtain ⟨r, hr, hexact⟩ := hrelease f (htargets o hlt f (callEdge?_of_callee? hf))
      exact (hexact _).mp (hspares f r hk hr) hunlocks
    · intro hnone f r hk hr
      have hlt : o < prog.ops.size := lt_of_kind_ne (by simp [hk])
      obtain ⟨r', hr', hexact⟩ :=
        hrelease f (htargets o hlt f (callEdge?_of_callee? (OpKind.callee?_eq_some.mpr hk)))
      obtain rfl := Option.some.inj (hr.symm.trans hr')
      exact (hexact _).mpr fun hunlocks => hnone ⟨f, OpKind.callee?_eq_some.mpr hk, hunlocks⟩
  have hown : (∀ l, (prog.kind o).released? = some l → l ≠ .unknown ∧ l ≠ x.lock) ↔
      ¬ ∃ l, (prog.kind o).released? = some l ∧ (l = .unknown ∨ l = x.lock) := by
    simp only [not_exists, not_and, not_or]
  rw [OpKind.mem_lockStep_iff, hcallee, hown, heldNext, Loses, not_or]

theorem mem_after_iff {s : LockSet} {ops : List OpId} {x : HeldLock} :
    x ∈ after prog release s ops ↔ prog.heldAfter (· ∈ s) ops x := by
  induction ops generalizing s with
  | nil => exact Iff.rfl
  | cons o ops ih =>
    have hstep : (fun y => y ∈ (prog.kind o).lockStep release s) = prog.heldNext (· ∈ s) o :=
      funext fun y => propext (mem_lockStep_iff hrelease htargets)
    show x ∈ after prog release ((prog.kind o).lockStep release s) ops ↔ _
    rw [ih, hstep]
    rfl

omit hrelease htargets in
theorem after_append (s : LockSet) (pre : List OpId) (o : OpId) :
    after prog release s (pre ++ [o]) =
      (prog.kind o).lockStep release (after prog release s pre) := by
  simp [after, List.foldl_append]

def lockAt (prog : Program) (release : Table ProcId Release) (starts : Table BlockId LockSet)
    (o : OpId) : Option LockSet :=
  (starts.get? (prog.blockOf o)).map fun s =>
    after prog release s ((prog.block (prog.blockOf o)).ops.take (prog.op o).position)

omit hrelease htargets in
theorem lockAt_first {starts : Table BlockId LockSet} (hc : prog.Coherent) {b : BlockId} {o : OpId}
    (ho : prog.opAt? b 0 = some o) : lockAt prog release starts o = starts.get? b := by
  obtain ⟨-, hb, hpos⟩ := hc.opAt?_iff.mp ho
  rw [lockAt, hb, hpos]
  simp [after]

omit hrelease htargets in
theorem lockAt_follows {starts : Table BlockId LockSet} (hc : prog.Coherent) {o o' : OpId}
    (ho : o < prog.ops.size) (hf : prog.Follows o o') : lockAt prog release starts o' =
      (lockAt prog release starts o).map ((prog.kind o).lockStep release) := by
  obtain ⟨-, hb, hpos⟩ := hc.follows_iff.mp hf
  obtain ⟨hlt, hget⟩ := List.getElem?_eq_some_iff.mp (hc.opAt?_self ho)
  rw [lockAt, lockAt, hb, hpos, List.take_succ_eq_append_getElem hlt, hget, Option.map_map]
  congr 1
  funext s
  exact after_append s _ o

variable {p : ProcId} {entry : LockSet} {starts : Table BlockId LockSet}

theorem lockAt_sound (hs : prog.Shaped) (hstarts : Starts prog release p entry starts)
    {ran : List OpId} {o : OpId} (h : prog.LocalPath p ran o) :
    o < prog.ops.size ∧ ∃ s, lockAt prog release starts o = some s ∧
      ∀ x ∈ s, prog.heldAfter (· ∈ entry) ran x := by
  induction h with
  | @start e he =>
    obtain ⟨hp, hlt, -⟩ := hs.entryOp_ok he
    obtain ⟨s, hfirst, hsub⟩ := hstarts.first
    obtain ⟨-, -, hb, -⟩ := hs.entry_ok hp
    rw [entryOp?, hb, Option.bind_some] at he
    exact ⟨hlt, s, (lockAt_first hs.toCoherent he).trans hfirst, hsub⟩
  | @next ran o o' _ _ hf ih =>
    obtain ⟨hlt, s, hat, hsub⟩ := ih
    refine ⟨(hs.follows_iff.mp hf).1, (prog.kind o).lockStep release s, ?_, fun x hx => ?_⟩
    · rw [lockAt_follows hs.toCoherent hlt hf, hat, Option.map_some]
    · rw [heldAfter_append]
      exact heldNext_mono hsub ((mem_lockStep_iff hrelease htargets).mp hx)
  | @branch ran o b o' _ hk hsucc ho' ih =>
    obtain ⟨hlt, s, hat, hsub⟩ := ih
    obtain ⟨s₀, hs₀, rfl⟩ := Option.map_eq_some_iff.mp hat
    obtain ⟨s', hs', hend⟩ := hstarts.next _ s₀ hs₀ b hsucc
    refine ⟨(hs.opAt?_iff.mp ho').1, s', (lockAt_first hs.toCoherent ho').trans hs', fun x hx => ?_⟩
    have hlast := hend x hx
    rw [blockEnd_eq, hs.ops_of_terminator hlt (by rw [hk]; rfl), after_append] at hlast
    rw [heldAfter_append]
    exact heldNext_mono hsub ((mem_lockStep_iff hrelease htargets).mp hlast)

def Reached (prog : Program) (p : ProcId) (entry : LockSet) (b : BlockId) (s : LockSet) : Prop :=
  ∃ first, prog.opAt? b 0 = some first ∧ (∃ ran, prog.LocalPath p ran first) ∧
    ∀ x, prog.HeldOnPaths p (· ∈ entry) first x → x ∈ s

theorem reached_starts (hs : prog.Shaped) (hp : p < prog.procs.size) :
    ∀ b s, (blockStarts prog release p entry).get? b = some s → Reached prog p entry b s := by
  apply blockStarts_all
  · rintro b s t ⟨first, hfirst, hpath, hs⟩ ⟨first', hfirst', -, ht⟩
    obtain rfl := Option.some.inj (hfirst.symm.trans hfirst')
    exact ⟨first, hfirst, hpath, fun x hx => (LockSet.mem_meet _ _ _).mpr ⟨hs x hx, ht x hx⟩⟩
  · rintro b s b' ⟨first, hfirst, hpath, hsub⟩ hsucc
    obtain ⟨first', hfirst'⟩ := hs.exists_first (hs.succ b (lt_of_succ hsucc) b' hsucc).1
    have hmore : ∀ ran, prog.LocalPath p ran first →
        prog.LocalPath p (ran ++ (prog.block b).ops) first' :=
      fun ran hran => hran.through hs hfirst hsucc hfirst'
    obtain ⟨ran, hran⟩ := hpath
    refine ⟨first', hfirst', ⟨_, hmore ran hran⟩, fun x hx => ?_⟩
    rw [blockEnd_eq, mem_after_iff hrelease htargets]
    exact heldAfter_mono hsub (hx.heldAfter ⟨ran, hran⟩ hmore)
  · obtain ⟨-, -, hb, hlt, -⟩ := hs.entry_ok hp
    obtain ⟨first, hfirst⟩ := hs.exists_first hlt
    have hentry : prog.entryOp? p = some first := by rw [entryOp?, hb, Option.bind_some, hfirst]
    exact ⟨first, hfirst, ⟨[], .start hentry⟩, fun x hx => hx [] (.start hentry)⟩

/-- The flow has a set where some path comes, and the set holds what all paths bring. -/
theorem lockAt_exact (hs : prog.Shaped) (hp : p < prog.procs.size) (hnd : entry.Nodup) {o : OpId}
    (ho : o < prog.ops.size) :
    ((∃ s, lockAt prog release (blockStarts prog release p entry) o = some s) ↔
      ∃ ran, prog.LocalPath p ran o) ∧
    ∀ s, lockAt prog release (blockStarts prog release p entry) o = some s →
      ∀ x, x ∈ s ↔ prog.HeldOnPaths p (· ∈ entry) o x := by
  have hstarts : Starts prog release p entry _ := blockStarts_spec hs hp hnd
  have hsound : ∀ {ran}, prog.LocalPath p ran o → ∃ s, _ ∧ _ := fun hran =>
    (lockAt_sound hrelease htargets hs hstarts hran).2
  have hcomplete : ∀ s, lockAt prog release (blockStarts prog release p entry) o = some s →
      (∃ ran, prog.LocalPath p ran o) ∧ ∀ x, prog.HeldOnPaths p (· ∈ entry) o x → x ∈ s := by
    intro s hat
    obtain ⟨s₀, hs₀, rfl⟩ := Option.map_eq_some_iff.mp hat
    obtain ⟨first, hfirst, ⟨ran, hran⟩, hsub⟩ := reached_starts hrelease htargets hs hp _ s₀ hs₀
    have hmore : ∀ ran, prog.LocalPath p ran first → prog.LocalPath p (ran ++
        (prog.block (prog.blockOf o)).ops.take (prog.op o).position) o :=
      fun ran hran => hran.along hs hfirst (hs.opAt?_self ho)
    refine ⟨⟨_, hmore ran hran⟩, fun x hx => ?_⟩
    rw [mem_after_iff hrelease htargets]
    exact heldAfter_mono hsub (hx.heldAfter ⟨ran, hran⟩ hmore)
  refine ⟨⟨?_, ?_⟩, fun s hat x => ⟨fun hx ran hran => ?_, (hcomplete s hat).2 x⟩⟩
  · rintro ⟨s, hat⟩
    exact (hcomplete s hat).1
  · rintro ⟨ran, hran⟩
    obtain ⟨s, hat, -⟩ := hsound hran
    exact ⟨s, hat⟩
  · obtain ⟨s', hat', hsub⟩ := hsound hran
    obtain rfl := Option.some.inj (hat.symm.trans hat')
    exact hsub x hx

end LockSets

end YieldPlan
