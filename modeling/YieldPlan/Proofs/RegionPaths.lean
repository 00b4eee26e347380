import YieldPlan.Proofs.LoopBounds

/-! The scan of a region works block by block. Here a region is a path of control within one
procedure that counts the nested regions, and the scan is shown to find exactly such paths: the
operations inside are on one, and the ends are the end markers that one comes to with no nested
region open. -/

namespace YieldPlan

/-- The nested regions that are open after an operation. The end marker that closes the region itself
has nothing after it. -/
def OpKind.nesting? : OpKind → Nat → Option Nat
  | .library .atomicBegin, d => some (d + 1)
  | .library .atomicEnd, 0 => none
  | .library .atomicEnd, d + 1 => some d
  | _, d => some d

namespace OpKind

variable {kind : OpKind} {d d' : Nat}

theorem nesting?_of_ne (hbegin : kind ≠ .library .atomicBegin) (hend : kind ≠ .library .atomicEnd)
    (d : Nat) : kind.nesting? d = some d := by
  cases kind with
  | library c => cases c <;> simp_all [nesting?]
  | _ => rfl

theorem nesting?_cases (h : kind.nesting? d = some d') :
    (kind = .library .atomicBegin ∧ d' = d + 1) ∨ (kind = .library .atomicEnd ∧ d = d' + 1) ∨
      (kind ≠ .library .atomicBegin ∧ kind ≠ .library .atomicEnd) ∧ d' = d := by
  by_cases hbegin : kind = .library .atomicBegin
  · subst hbegin
    cases h
    exact .inl ⟨rfl, rfl⟩
  · by_cases hend : kind = .library .atomicEnd
    · subst hend
      cases d with
      | zero => cases h
      | succ d =>
        cases h
        exact .inr (.inl ⟨rfl, rfl⟩)
    · rw [nesting?_of_ne hbegin hend] at h
      cases h
      exact .inr (.inr ⟨⟨hbegin, hend⟩, rfl⟩)

end OpKind

namespace Program

variable (prog : Program)

/-- Control comes from a begin marker to an operation, with so many nested regions open. A call is
stepped over if `skips` holds of its callee. -/
inductive Inside (skips : ProcId → Prop) (start : OpId) : OpId → Nat → Prop where
  | first {o} : prog.Follows start o → Inside skips start o 0
  | next {o o' d d'} : Inside skips start o d → ¬ (prog.kind o).isTerminator →
      (∀ f, (prog.kind o).callee? = some f → skips f) → (prog.kind o).nesting? d = some d' →
      prog.Follows o o' → Inside skips start o' d'
  | branch {o s o' d} : Inside skips start o d → prog.kind o = .terminator .branch →
      prog.Succ (prog.blockOf o) s → prog.opAt? s 0 = some o' → Inside skips start o' d

def Closes (skips : ProcId → Prop) (start e : OpId) : Prop :=
  prog.kind e = .library .atomicEnd ∧ prog.Inside skips start e 0

def Returnable (f : ProcId) : Prop :=
  ∃ e r, prog.entryOp? f = some e ∧ prog.Level e r ∧ prog.kind r = .terminator .ret

variable {prog} {skips skips' : ProcId → Prop} {start o e : OpId} {d : Nat}

theorem Inside.mono (hskips : ∀ x f, (prog.kind x).callee? = some f → skips f → skips' f)
    (h : prog.Inside skips start o d) : prog.Inside skips' start o d := by
  induction h with
  | first hf => exact .first hf
  | @next x _ _ _ _ ht hc hn hf ih =>
    exact .next ih ht (fun f hk => hskips x f hk (hc f hk)) hn hf
  | branch _ hk hs ho ih => exact .branch ih hk hs ho

theorem Closes.mono (hskips : ∀ x f, (prog.kind x).callee? = some f → skips f → skips' f)
    (h : prog.Closes skips start e) : prog.Closes skips' start e := ⟨h.1, h.2.mono hskips⟩

theorem Inside.path {R : OpId → OpId → Prop} (h : prog.Inside skips start o d)
    (hstart : ∀ x, prog.Follows start x → R start x)
    (hnext : ∀ x y, ¬ (prog.kind x).isTerminator →
      (∀ f, (prog.kind x).callee? = some f → skips f) → prog.Follows x y → R x y)
    (hbranch : ∀ x s y, prog.kind x = .terminator .branch → prog.Succ (prog.blockOf x) s →
      prog.opAt? s 0 = some y → R x y) :
    Relation.ReflTransGen R start o := by
  induction h with
  | first hf => exact .single (hstart _ hf)
  | next _ ht hc _ hf ih => exact ih.tail (hnext _ _ ht hc hf)
  | branch _ hk hs ho ih => exact ih.tail (hbranch _ _ _ hk hs ho)

theorem Inside.advance {returns : ProcId → Prop} (hk : prog.kind start = .library .atomicBegin)
    (h : prog.Inside returns start o d) : Relation.ReflTransGen (prog.Advance returns) start o := by
  apply h.path
  · intro x hf
    exact .next (by simp [hk, OpKind.isTerminator]) (by rw [hk]; rfl) hf
  · intro x y ht hc hf
    cases hcall : (prog.kind x).callee? with
    | none => exact .next ht hcall hf
    | some f => exact .resume hcall (hc f hcall) hf
  · intro x s y
    exact .branch

theorem Inside.level (hk : prog.kind start = .library .atomicBegin)
    (h : prog.Inside prog.Returnable start o d) : prog.Level start o := by
  have hpath : Relation.ReflTransGen prog.Level start o := by
    apply h.path
    · intro x hf
      exact .next .refl (by simp [hk, OpKind.isTerminator]) (by rw [hk]; rfl) hf
    · intro x y ht hc hf
      cases hcall : (prog.kind x).callee? with
      | none => exact .next .refl ht hcall hf
      | some f =>
        obtain ⟨e, r, he, hr, hkr⟩ := hc f hcall
        exact .skip .refl hcall he hr hkr hf
    · intro x s y
      exact .branch .refl
  clear h
  induction hpath with
  | refl => exact .refl
  | tail _ hl ih => exact ih.trans hl

end Program

namespace AtomicRegion

open Program

variable {prog : Program} {start : OpId} {maxDepth : Nat}

/-- What a run through a block that the scan enters on a path says about paths. -/
structure OnPaths (prog : Program) (start : OpId) (b : BlockId) (maxDepth : Nat) (r : Run) :
    Prop where
  inside : ∀ x ∈ r.inside, (prog.kind x ≠ .library .atomicBegin ∧
    prog.kind x ≠ .library .atomicEnd) ∧ ∃ d, prog.Inside (fun _ => True) start x d
  closed : ∀ e, r.outcome = .closed e → prog.Closes (fun _ => True) start e
  returned : ∀ x, r.outcome = .returned x → prog.kind x = .terminator .ret ∧
    ∃ d, prog.Inside (fun _ => True) start x d
  deep : r.outcome = .tooDeep → ∃ x d, maxDepth ≤ d ∧ prog.Inside (fun _ => True) start x d
  branched : ∀ d ∈ r.branches, ∃ x, prog.blockOf x = b ∧
    prog.kind x = .terminator .branch ∧ prog.Inside (fun _ => True) start x d

theorem OnPaths.add {b : BlockId} {r : Run} {o : OpId} {d : Nat} (h : OnPaths prog start b maxDepth r)
    (hbegin : prog.kind o ≠ .library .atomicBegin) (hend : prog.kind o ≠ .library .atomicEnd)
    (hin : prog.Inside (fun _ => True) start o d) : OnPaths prog start b maxDepth (r.add o) where
  inside := List.forall_mem_cons.mpr ⟨⟨⟨hbegin, hend⟩, d, hin⟩, h.inside⟩
  closed := h.closed
  returned := h.returned
  deep := h.deep
  branched := h.branched

theorem OnPaths.branch {r : Run} {o : OpId} {d : Nat}
    (h : OnPaths prog start (prog.blockOf o) maxDepth r) (hk : prog.kind o = .terminator .branch)
    (hin : prog.Inside (fun _ => True) start o d) :
    OnPaths prog start (prog.blockOf o) maxDepth (r.branch d) where
  inside := h.inside
  closed := h.closed
  returned := h.returned
  deep := h.deep
  branched := List.forall_mem_cons.mpr ⟨⟨o, rfl, hk, hin⟩, h.branched⟩

theorem runOps_onPaths (hs : prog.Shaped) {b : BlockId} {ops : List OpId} {d : Nat}
    (hsuffix : ops <:+ (prog.block b).ops)
    (hhead : ∀ o, ops.head? = some o → prog.Inside (fun _ => True) start o d) :
    OnPaths prog start b maxDepth (runOps prog maxDepth d ops) := by
  induction ops generalizing d with
  | nil => constructor <;> simp [runOps]
  | cons o rest ih =>
    have hin : prog.Inside (fun _ => True) start o d := hhead o rfl
    have hrest : ∀ d', ((prog.kind o).isTerminator ∨ (prog.kind o).nesting? d = some d') →
        OnPaths prog start b maxDepth (runOps prog maxDepth d' rest) := by
      intro d' hd'
      apply ih ((List.suffix_cons o rest).trans hsuffix)
      intro o' ho'
      obtain ⟨tail, rfl⟩ := List.head?_eq_some_iff.mp ho'
      have ht : ¬ (prog.kind o).isTerminator := fun ht => by cases hs.terminator_last hsuffix ht
      exact .next hin ht (fun _ _ => trivial) (hd'.resolve_left ht) (hs.follows_of_suffix hsuffix).2
    unfold runOps
    split
    · next hk =>
      split
      · next hdeep =>
        exact ⟨by simp, by simp, by simp, fun _ => ⟨o, d, Nat.le_of_lt_succ hdeep, hin⟩, by simp⟩
      · exact hrest (d + 1) (.inr (by rw [hk]; rfl))
    · next hk =>
      cases d with
      | zero =>
        refine ⟨by simp, ?_, by simp, by simp, by simp⟩
        rintro _ ⟨⟩
        exact ⟨hk, hin⟩
      | succ d => exact hrest d (.inr (by rw [hk]; rfl))
    · next hk =>
      refine ⟨by simp, by simp, ?_, by simp, by simp⟩
      rintro _ ⟨⟩
      exact ⟨hk, d, hin⟩
    · next hk =>
      obtain rfl : prog.blockOf o = b := (hs.mem_ops.mp (hsuffix.subset List.mem_cons_self)).2
      have hrun := hrest d (.inl (by simp [hk, OpKind.isTerminator]))
      exact (hrun.branch hk hin).add (by simp [hk]) (by simp [hk]) hin
    · next hbegin hend _ _ =>
      exact (hrest d (.inr (OpKind.nesting?_of_ne hbegin hend d))).add hbegin hend hin

theorem runAt_onPaths (hs : prog.Shaped) {s : Position}
    (h : ∀ o, s.1.op? prog = some o → prog.Inside (fun _ => True) start o s.2) :
    OnPaths prog start s.1.block maxDepth (runAt prog maxDepth s) := by
  unfold runAt
  cases hops : s.1.ops? prog with
  | none => constructor <;> simp [runOps]
  | some ops =>
    apply runOps_onPaths hs (ops?_suffix hops)
    intro o ho
    apply h
    rwa [ops?_head? hops] at ho

theorem inside_of_reaches (hs : prog.Shaped) {s : Position}
    (h : Graph.Reaches (next prog maxDepth) (prog.pointAfter start, 0) s) :
    ∀ o, s.1.op? prog = some o → prog.Inside (fun _ => True) start o s.2 := by
  induction h with
  | refl =>
    intro o ho
    exact .first ho
  | tail _ hlast ih =>
    intro o ho
    obtain ⟨d, hd, b, hb, rfl⟩ := mem_next.mp hlast
    obtain ⟨x, hx, hk, hin⟩ := (runAt_onPaths hs ih).branched d hd
    exact .branch hin hk (hx ▸ hb) ho

theorem runs_onPaths (hs : prog.Shaped) (ho : start < prog.ops.size) {r : Run}
    (hr : r ∈ runs prog start) :
    ∃ b, OnPaths prog start b (prog.procOps (prog.procOf start)).length r := by
  obtain ⟨s, hreach, rfl⟩ := (mem_runs hs ho).mp hr
  exact ⟨_, runAt_onPaths hs (inside_of_reaches hs hreach)⟩

theorem scan_sound (hs : prog.Shaped) (ho : start < prog.ops.size) {m : Movability}
    {region : AtomicRegion} (h : scan prog m start = .ok region) :
    (∀ x ∈ region.ops, ∃ d, prog.Inside (fun _ => True) start x d) ∧
      ∀ e ∈ region.ends, prog.Closes (fun _ => True) start e := by
  constructor
  · intro x hx
    rw [(scan_parts h).2.1] at hx
    obtain ⟨r, hr, hx⟩ := List.mem_flatMap.mp (mem_sortNats.mp hx)
    obtain ⟨b, hb⟩ := runs_onPaths hs ho hr
    exact (hb.inside x hx).2
  · intro e he
    obtain ⟨r, hr, hclosed⟩ := closed_of_mem_ends h he
    obtain ⟨b, hb⟩ := runs_onPaths hs ho hr
    exact hb.closed e hclosed

theorem distinct_mem {x : OpId} {seen xs : List OpId} (h : x ∈ xs) :
    x ∈ seen ∨ x ∈ distinct seen xs := by
  induction xs generalizing seen with
  | nil => cases h
  | cons y xs ih =>
    rw [distinct]
    rcases List.mem_cons.mp h with rfl | h
    · by_cases hx : x ∈ seen
      · exact .inl hx
      · rw [if_neg hx]
        exact .inr List.mem_cons_self
    · split
      · exact ih h
      · rcases @ih (y :: seen) h with hx | hx
        · rcases List.mem_cons.mp hx with rfl | hx
          · exact .inr List.mem_cons_self
          · exact .inl hx
        · exact .inr (List.mem_cons_of_mem _ hx)

structure Run.Ends (r whole : Run) : Prop where
  outcome : whole.outcome = r.outcome
  inside : ∀ x ∈ r.inside, x ∈ whole.inside
  branches : ∀ d ∈ r.branches, d ∈ whole.branches

theorem Run.Ends.refl (r : Run) : r.Ends r := ⟨rfl, fun _ => id, fun _ => id⟩

theorem Run.Ends.trans {a b c : Run} (h : a.Ends b) (k : b.Ends c) : a.Ends c where
  outcome := k.outcome.trans h.outcome
  inside x hx := k.inside x (h.inside x hx)
  branches d hd := k.branches d (h.branches d hd)

/-- A run of the scan comes to the operation with so many nested regions open. -/
def Comes (prog : Program) (start o : OpId) (d : Nat) : Prop :=
  let maxDepth := (prog.procOps (prog.procOf start)).length
  ∃ s ops, o :: ops <:+ (prog.block s.1.block).ops ∧
    Graph.Reaches (next prog maxDepth) (prog.pointAfter start, 0) s ∧
    (runOps prog maxDepth d (o :: ops)).Ends (runAt prog maxDepth s)

theorem comes_at {s : Position} {o : OpId}
    (h : Graph.Reaches (next prog (prog.procOps (prog.procOf start)).length)
      (prog.pointAfter start, 0) s) (ho : s.1.op? prog = some o) : Comes prog start o s.2 := by
  obtain ⟨rest, hops⟩ := ops?_of_opAt? ho
  refine ⟨s, rest, ops?_suffix hops, h, ?_⟩
  rw [runAt, show s.1.ops? prog = _ from hops]
  exact .refl _

theorem runOps_next {o : OpId} {rest : List OpId} {d d' : Nat}
    (ht : ¬ (prog.kind o).isTerminator) (hn : (prog.kind o).nesting? d = some d')
    (hdeep : (runOps prog maxDepth d (o :: rest)).outcome ≠ .tooDeep) :
    (runOps prog maxDepth d' rest).Ends (runOps prog maxDepth d (o :: rest)) := by
  simp only [runOps] at hdeep ⊢
  split
  · next hk =>
    rw [hk] at hn
    simp only [hk] at hdeep
    cases hn
    split
    · next hmax => simp [hmax] at hdeep
    · exact .refl _
  · next hk =>
    rw [hk] at hn
    cases d with
    | zero => cases hn
    | succ d =>
      cases hn
      exact .refl _
  · next hk => simp [hk, OpKind.isTerminator] at ht
  · next hk => simp [hk, OpKind.isTerminator] at ht
  · have hd : d' = d := by
      cases hk : prog.kind o with
      | library c => cases c <;> simp_all [OpKind.nesting?]
      | _ => simp_all [OpKind.nesting?]
    rw [hd]
    exact ⟨rfl, fun x hx => List.mem_cons_of_mem o hx, fun _ => id⟩

theorem comes_of_inside (hs : prog.Shaped) (ho : start < prog.ops.size)
    (hmatched : ∀ r ∈ runs prog start, r.outcome.unmatched? prog = none) {o : OpId} {d : Nat}
    (h : prog.Inside (fun _ => True) start o d) : Comes prog start o d := by
  induction h with
  | first hf => exact comes_at .refl hf
  | next _ ht _ hn hf ih =>
    obtain ⟨s, ops, hsuffix, hreach, hends⟩ := ih
    obtain ⟨-, rest, rfl⟩ := hs.suffix_follows hsuffix hf
    refine ⟨s, rest, (List.suffix_cons _ _).trans hsuffix, hreach, (runOps_next ht hn ?_).trans hends⟩
    rw [← hends.outcome]
    intro hdeep
    have hrun := hmatched _ ((mem_runs hs ho).mpr ⟨s, hreach, rfl⟩)
    rw [hdeep] at hrun
    cases hrun
  | @branch x b o' d _ hk hb ho' ih =>
    obtain ⟨s, ops, hsuffix, hreach, hends⟩ := ih
    have hbranched : d ∈ (runAt prog (prog.procOps (prog.procOf start)).length s).branches := by
      apply hends.branches
      simp [runOps, hk, Run.add, Run.branch]
    have hblock : prog.blockOf x = s.1.block :=
      (hs.mem_ops.mp (hsuffix.subset List.mem_cons_self)).2
    have hedge : (Point.entry b, d) ∈ next prog (prog.procOps (prog.procOf start)).length s :=
      mem_next.mpr ⟨d, hbranched, b, hblock ▸ hb, rfl⟩
    exact comes_at (s := (Point.entry b, d)) (hreach.tail hedge) ho'

theorem closed_of_closes (hs : prog.Shaped) (ho : start < prog.ops.size)
    (hmatched : ∀ r ∈ runs prog start, r.outcome.unmatched? prog = none) {e : OpId}
    (he : prog.Closes (fun _ => True) start e) : ∃ r ∈ runs prog start, r.outcome = .closed e := by
  obtain ⟨s, ops, -, hreach, hrun⟩ := comes_of_inside hs ho hmatched he.2
  refine ⟨_, (mem_runs hs ho).mpr ⟨s, hreach, rfl⟩, ?_⟩
  rw [hrun.outcome]
  simp only [runOps, he.1]

/-- A region that is scanned ends at every end marker that closes it. -/
theorem scan_complete (hs : prog.Shaped) (ho : start < prog.ops.size) {m : Movability}
    {region : AtomicRegion} (h : scan prog m start = .ok region) {e : OpId}
    (he : prog.Closes (fun _ => True) start e) : e ∈ region.ends := by
  obtain ⟨hmatched, rfl, -⟩ := scan_parts h
  obtain ⟨r, hr, hclosed⟩ := closed_of_closes hs ho hmatched he
  refine (distinct_mem ?_).resolve_left (by simp)
  exact List.mem_filterMap.mpr ⟨r, hr, Outcome.end?_eq_some.mpr hclosed⟩

theorem scan_inside (hs : prog.Shaped) (ho : start < prog.ops.size) {m : Movability}
    {region : AtomicRegion} (h : scan prog m start = .ok region) {o : OpId} {d : Nat}
    (hin : prog.Inside (fun _ => True) start o d) (hbegin : prog.kind o ≠ .library .atomicBegin)
    (hend : prog.kind o ≠ .library .atomicEnd) : o ∈ region.ops := by
  obtain ⟨hmatched, rfl, -⟩ := scan_parts h
  obtain ⟨s, ops, -, hreach, hrun⟩ := comes_of_inside hs ho hmatched hin
  have hmem := (mem_runs hs ho).mpr ⟨s, hreach, rfl⟩
  refine mem_sortNats.mpr (List.mem_flatMap.mpr ⟨_, hmem, hrun.inside o ?_⟩)
  unfold runOps
  split
  · next hk => exact absurd hk hbegin
  · next hk => exact absurd hk hend
  · next hk =>
    have hopen := hmatched _ hmem
    rw [hrun.outcome] at hopen
    simp [runOps, hk, Outcome.unmatched?] at hopen
  · exact List.mem_cons_self
  · exact List.mem_cons_self

end AtomicRegion

end YieldPlan
