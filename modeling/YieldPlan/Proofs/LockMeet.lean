import YieldPlan.Proofs.LockPaths

/-! After the flow, the sets of a procedure are recorded block by block, and each call or thread
creation narrows what the procedure that it enters starts with. In whatever order the blocks are
taken, a procedure that is taken after its callers starts with what all its calls hold, and with
nothing if it is a thread body or is never called. -/

namespace YieldPlan

namespace LockSets

open Program

variable {prog : Program} {release : Table ProcId Release}

def Progress.visit (prog : Program) (g : Progress) (v : OpId × LockSet) : Progress :=
  let g := g.enter (prog.kind v.1) v.2
  { g with held := g.held.put v.1 v.2 }

def visits (prog : Program) (release : Table ProcId Release) (s : LockSet) :
    List OpId → List (OpId × LockSet)
  | [] => []
  | o :: rest => (o, s) :: visits prog release ((prog.kind o).lockStep release s) rest

theorem Progress.addOps_eq (g : Progress) (s : LockSet) (ops : List OpId) :
    g.addOps prog release s ops = (visits prog release s ops).foldl (visit prog) g := by
  induction ops generalizing g s with
  | nil => rfl
  | cons o ops ih => exact ih _ _

theorem map_visits (s : LockSet) (ops : List OpId) :
    (visits prog release s ops).map (·.1) = ops := by
  induction ops generalizing s with
  | nil => rfl
  | cons o ops ih => rw [visits, List.map_cons, ih]

theorem mem_visits {s t : LockSet} {ops : List OpId} {o : OpId} :
    (o, t) ∈ visits prog release s ops ↔
      ∃ i, ops[i]? = some o ∧ t = after prog release s (ops.take i) := by
  induction ops generalizing s with
  | nil => simp [visits]
  | cons a ops ih =>
    rw [visits, List.mem_cons, ih]
    constructor
    · rintro (heq | ⟨i, hi, rfl⟩)
      · cases heq
        exact ⟨0, rfl, rfl⟩
      · exact ⟨i + 1, hi, rfl⟩
    · rintro ⟨i, hi, rfl⟩
      cases i with
      | zero =>
        cases hi
        exact .inl rfl
      | succ i => exact .inr ⟨i, hi, rfl⟩

theorem Progress.held_visit (g : Progress) (v : OpId × LockSet) (o : OpId) :
    (g.visit prog v).held.get? o = if o = v.1 then some v.2 else g.held.get? o := by
  show ((g.enter (prog.kind v.1) v.2).held.put v.1 v.2).get? o = _
  rw [Table.get?_put, enter_held]

theorem Progress.held_foldl {vs : List (OpId × LockSet)} (hnd : (vs.map (·.1)).Nodup) {g : Progress}
    {o : OpId} : (∀ s, (o, s) ∈ vs → (vs.foldl (visit prog) g).held.get? o = some s) ∧
      (o ∉ vs.map (·.1) → (vs.foldl (visit prog) g).held.get? o = g.held.get? o) := by
  induction vs generalizing g with
  | nil => simp
  | cons v vs ih =>
    obtain ⟨hv, hnd⟩ := List.nodup_cons.mp hnd
    obtain ⟨hin, hout⟩ := ih hnd (g := g.visit prog v)
    constructor
    · intro s hs
      rcases List.mem_cons.mp hs with rfl | hs
      · rw [List.foldl_cons, hout hv, held_visit, if_pos rfl]
      · exact hin s hs
    · intro ho
      rw [List.map_cons, List.mem_cons, not_or] at ho
      rw [List.foldl_cons, hout ho.2, held_visit, if_neg ho.1]

/-- Every call to the procedure that has a set holds the lock, and no thread creation of it has a
set. -/
def Common (prog : Program) (held : OpId → Option LockSet) (q : ProcId) (x : HeldLock) : Prop :=
  (∀ a s, held a = some s → (prog.kind a).spawn? ≠ some q) ∧
    ∀ c s, held c = some s → (prog.kind c).callee? = some q → x ∈ s

/-- The procedure has been called, and all that enters it lets it start with the lock. -/
def EntryHeld (prog : Program) (held : OpId → Option LockSet) (q : ProcId) (x : HeldLock) : Prop :=
  (∃ c s, held c = some s ∧ (prog.kind c).callee? = some q) ∧ Common prog held q x

/-- What is noted for the start of a procedure: nothing as long as nothing enters it, and then what all
that enters it has in common. -/
def Notes (prog : Program) (held : OpId → Option LockSet) (q : ProcId) : Option LockSet → Prop
  | none => ∀ o s, held o = some s → (prog.kind o).callEdge? ≠ some q
  | some t => (∃ o s, held o = some s ∧ (prog.kind o).callEdge? = some q) ∧
    ∀ x, x ∈ t ↔ Common prog held q x

theorem Notes.mem_getD {held : OpId → Option LockSet} {q : ProcId} {t : Option LockSet}
    (h : Notes prog held q t) (x : HeldLock) : x ∈ t.getD [] ↔ EntryHeld prog held q x := by
  cases t with
  | none =>
    constructor
    · intro hx
      cases hx
    · rintro ⟨⟨c, s, hc, hk⟩, -⟩
      exact absurd (callEdge?_of_callee? hk) (h c s hc)
  | some t =>
    obtain ⟨⟨o, s, ho, hedge⟩, hiff⟩ := h
    rw [Option.getD_some, hiff]
    refine ⟨fun hcommon => ⟨?_, hcommon⟩, fun hentry => hentry.2⟩
    rcases callee?_or_spawn? hedge with ⟨hcallee, -⟩ | ⟨-, hspawn⟩
    · exact ⟨o, s, ho, hcallee⟩
    · exact absurd hspawn (hcommon.1 o s ho)

section Visit

variable {g : Progress} {v : OpId × LockSet} (hfresh : g.held.get? v.1 = none) {q : ProcId}

include hfresh

theorem held_visit_iff {o : OpId} {s : LockSet} : (g.visit prog v).held.get? o = some s ↔
    (o = v.1 ∧ s = v.2) ∨ g.held.get? o = some s := by
  rw [Progress.held_visit]
  by_cases ho : o = v.1
  · rw [if_pos ho, ho, hfresh]
    simp [eq_comm]
  · simp [ho]

theorem common_visit {x : HeldLock} : Common prog (g.visit prog v).held.get? q x ↔
    ((prog.kind v.1).spawn? ≠ some q ∧ ((prog.kind v.1).callee? = some q → x ∈ v.2)) ∧
      Common prog g.held.get? q x := by
  unfold Common
  simp only [held_visit_iff hfresh]
  constructor
  · rintro ⟨hspawns, hcalls⟩
    exact ⟨⟨hspawns v.1 v.2 (.inl ⟨rfl, rfl⟩), hcalls v.1 v.2 (.inl ⟨rfl, rfl⟩)⟩,
      fun a s ha => hspawns a s (.inr ha), fun c s hc => hcalls c s (.inr hc)⟩
  · rintro ⟨⟨hspawn, hcall⟩, hspawns, hcalls⟩
    constructor
    · rintro a s (⟨rfl, rfl⟩ | ha)
      · exact hspawn
      · exact hspawns a s ha
    · rintro c s (⟨rfl, rfl⟩ | hc)
      · exact hcall
      · exact hcalls c s hc

theorem Notes.visit (h : Notes prog g.held.get? q (g.entries.get? q)) :
    Notes prog (g.visit prog v).held.get? q ((g.visit prog v).entries.get? q) := by
  have hself : (g.visit prog v).held.get? v.1 = some v.2 :=
    (held_visit_iff hfresh).mpr (.inl ⟨rfl, rfl⟩)
  have hentries : (g.visit prog v).entries.get? q =
      if (prog.kind v.1).spawn? = some q then some []
      else if prog.kind v.1 = .call q then some (((g.entries.get? q).map (·.meet v.2)).getD v.2)
      else g.entries.get? q := Progress.enter_entries g _ _ q
  rw [hentries]
  by_cases hspawn : (prog.kind v.1).spawn? = some q
  · rw [if_pos hspawn]
    refine ⟨⟨v.1, v.2, hself, callEdge?_of_spawn? hspawn⟩, fun x => ⟨by simp, fun hcommon => ?_⟩⟩
    exact absurd hspawn ((common_visit hfresh).mp hcommon).1.1
  · rw [if_neg hspawn]
    by_cases hcall : prog.kind v.1 = .call q
    · have hcallee := OpKind.callee?_eq_some.mpr hcall
      rw [if_pos hcall]
      refine ⟨⟨v.1, v.2, hself, callEdge?_of_callee? hcallee⟩, fun x => ?_⟩
      rw [common_visit hfresh]
      cases hold : g.entries.get? q with
      | none =>
        rw [hold] at h
        have hcommon : Common prog g.held.get? q x :=
          ⟨fun a s ha hk => h a s ha (callEdge?_of_spawn? hk),
            fun c s hc hk => absurd (callEdge?_of_callee? hk) (h c s hc)⟩
        simp [hspawn, hcallee, hcommon]
      | some t =>
        rw [hold] at h
        simp [hspawn, hcallee, h.2 x, and_comm]
    · have hcallee : (prog.kind v.1).callee? ≠ some q := fun hk => hcall (OpKind.callee?_eq_some.mp hk)
      have hedge : (prog.kind v.1).callEdge? ≠ some q := by
        intro hk
        rcases callee?_or_spawn? hk with ⟨hk, -⟩ | ⟨-, hk⟩
        · exact hcallee hk
        · exact hspawn hk
      rw [if_neg hcall]
      cases hold : g.entries.get? q with
      | none =>
        rw [hold] at h
        intro o s ho
        rcases (held_visit_iff hfresh).mp ho with ⟨rfl, -⟩ | ho
        · exact hedge
        · exact h o s ho
      | some t =>
        rw [hold] at h
        obtain ⟨⟨o, s, ho, hk⟩, hiff⟩ := h
        refine ⟨⟨o, s, (held_visit_iff hfresh).mpr (.inr ho), hk⟩, fun x => ?_⟩
        rw [common_visit hfresh, hiff]
        simp [hspawn, hcallee]

end Visit

theorem Notes.foldl {vs : List (OpId × LockSet)} (hnd : (vs.map (·.1)).Nodup) {g : Progress}
    (hfresh : ∀ v ∈ vs, g.held.get? v.1 = none) {q : ProcId}
    (h : Notes prog g.held.get? q (g.entries.get? q)) :
    Notes prog (vs.foldl (Progress.visit prog) g).held.get? q
      ((vs.foldl (Progress.visit prog) g).entries.get? q) := by
  induction vs generalizing g with
  | nil => exact h
  | cons v vs ih =>
    obtain ⟨hv, hnd⟩ := List.nodup_cons.mp hnd
    obtain ⟨hfirst, hrest⟩ := List.forall_mem_cons.mp hfresh
    apply ih hnd _ (h.visit hfirst)
    intro u hu
    have hne : u.1 ≠ v.1 := fun heq => hv (List.mem_map.mpr ⟨u, hu, heq⟩)
    rw [Progress.held_visit, if_neg hne]
    exact hrest u hu

def procVisits (prog : Program) (release : Table ProcId Release) (l : List (BlockId × LockSet)) :
    List (OpId × LockSet) :=
  l.flatMap fun e => visits prog release e.2 (prog.block e.1).ops

def Progress.flow (prog : Program) (release : Table ProcId Release) (g : Progress) (p : ProcId) :
    Table BlockId LockSet :=
  blockStarts prog release p ((g.entries.get? p).getD [])

def Progress.addProcIn (prog : Program) (release : Table ProcId Release)
    (pick : ProcId → List (BlockId × LockSet) → List (BlockId × LockSet)) (g : Progress)
    (p : ProcId) : Progress :=
  (pick p (g.flow prog release p).entries).foldl
    (fun g e => g.addOps prog release e.2 (prog.block e.1).ops)
    { g with entries := g.entries.erase p }

theorem foldl_addOps_eq (l : List (BlockId × LockSet)) (g : Progress) :
    l.foldl (fun g e => g.addOps prog release e.2 (prog.block e.1).ops) g =
      (procVisits prog release l).foldl (Progress.visit prog) g := by
  simp only [procVisits, List.foldl_flatMap, Progress.addOps_eq]

theorem nodup_procVisits (hc : prog.Coherent) {l : List (BlockId × LockSet)}
    (hnd : (l.map (·.1)).Nodup) : ((procVisits prog release l).map (·.1)).Nodup := by
  simp only [procVisits, List.map_flatMap, map_visits]
  refine List.nodup_flatMap.mpr ⟨fun e _ => hc.nodup_ops e.1, ?_⟩
  refine (List.pairwise_map.mp hnd).imp ?_
  intro d e hne o hd he
  exact hne ((hc.mem_ops.mp hd).2.symm.trans (hc.mem_ops.mp he).2)

theorem mem_procVisits (hc : prog.Coherent) {starts : Table BlockId LockSet}
    (hkeys : starts.keys.Nodup) {l : List (BlockId × LockSet)} (hl : l.Perm starts.entries)
    {o : OpId} {s : LockSet} : (o, s) ∈ procVisits prog release l ↔
      o < prog.ops.size ∧ lockAt prog release starts o = some s := by
  simp only [procVisits, List.mem_flatMap, mem_visits, lockAt, Option.map_eq_some_iff]
  constructor
  · rintro ⟨⟨b, s₀⟩, he, i, hi, rfl⟩
    obtain ⟨hlt, rfl, rfl⟩ := hc.opAt?_iff.mp hi
    exact ⟨hlt, s₀, (Table.mem_entries hkeys).mp (hl.mem_iff.mp he), rfl⟩
  · rintro ⟨hlt, s₀, hs₀, rfl⟩
    exact ⟨(prog.blockOf o, s₀), hl.mem_iff.mpr ((Table.mem_entries hkeys).mpr hs₀), _,
      hc.opAt?_self hlt, rfl⟩

/-- What holds once some procedures are taken: their operations have exactly what all paths bring from
what the procedure starts with, and the starts of the others are noted. -/
structure Progress.Exact (prog : Program) (done : ProcId → Prop) (g : Progress) : Prop where
  clean : g.Clean
  known : ∀ o s, g.held.get? o = some s → o < prog.ops.size ∧ done (prog.procOf o)
  defined : ∀ o < prog.ops.size, done (prog.procOf o) →
    ((∃ s, g.held.get? o = some s) ↔ ∃ ran, prog.LocalPath (prog.procOf o) ran o)
  meets : ∀ o s, g.held.get? o = some s → ∀ x, x ∈ s ↔
    prog.HeldOnPaths (prog.procOf o) (EntryHeld prog g.held.get? (prog.procOf o)) o x
  notes : ∀ q, ¬ done q → Notes prog g.held.get? q (g.entries.get? q)

theorem exact_empty : Progress.Exact prog (fun _ => False) {} where
  clean _ _ h := by cases h
  known _ _ h := by cases h
  defined _ _ h := h.elim
  meets _ _ h := by cases h
  notes _ _ _ _ h := by cases h

theorem EntryHeld.congr {held held' : OpId → Option LockSet} {q : ProcId}
    (h : ∀ o, (prog.kind o).callEdge? = some q → held o = held' o) :
    EntryHeld prog held q = EntryHeld prog held' q := by
  have hhalf : ∀ {held held' : OpId → Option LockSet} {x : HeldLock},
      (∀ o, (prog.kind o).callEdge? = some q → held o = held' o) →
      EntryHeld prog held q x → EntryHeld prog held' q x := by
    rintro held held' x h ⟨⟨c, s, hc, hk⟩, hspawns, hcalls⟩
    refine ⟨⟨c, s, h c (callEdge?_of_callee? hk) ▸ hc, hk⟩, fun a s ha hk => ?_, fun c s hc hk => ?_⟩
    · exact hspawns a s (h a (callEdge?_of_spawn? hk) ▸ ha) hk
    · exact hcalls c s (h c (callEdge?_of_callee? hk) ▸ hc) hk
  funext x
  exact propext ⟨hhalf h, hhalf fun o hk => (h o hk).symm⟩

section AddProc

variable (hs : prog.Shaped) {pick : ProcId → List (BlockId × LockSet) → List (BlockId × LockSet)}
  (hpick : ∀ p l, (pick p l).Perm l) {g : Progress} (hclean : g.Clean) {p : ProcId}
  (hp : p < prog.procs.size) (hfresh : ∀ o, prog.procOf o = p → g.held.get? o = none)

include hs hclean hp

omit hs hp in
theorem Progress.Clean.nodup_getD : ((g.entries.get? p).getD []).Nodup := by
  cases hget : g.entries.get? p with
  | none => exact List.nodup_nil
  | some t => exact hclean p t hget

theorem Progress.starts_flow :
    Starts prog release p ((g.entries.get? p).getD []) (g.flow prog release p) :=
  blockStarts_spec hs hp hclean.nodup_getD

include hpick

theorem nodup_picked :
    ((procVisits prog release (pick p (g.flow prog release p).entries)).map (·.1)).Nodup := by
  have hstarts : Starts prog release p _ (g.flow prog release p) :=
    Progress.starts_flow hs hclean hp
  have hkeys : ((g.flow prog release p).entries.map (·.1)).Nodup := hstarts.keys
  exact nodup_procVisits hs.toCoherent (((hpick p _).map (·.1)).nodup_iff.mpr hkeys)

theorem mem_picked {o : OpId} {s : LockSet} :
    (o, s) ∈ procVisits prog release (pick p (g.flow prog release p).entries) ↔
      (o < prog.ops.size ∧ prog.procOf o = p) ∧
        lockAt prog release (g.flow prog release p) o = some s := by
  have hstarts : Starts prog release p _ (g.flow prog release p) :=
    Progress.starts_flow hs hclean hp
  rw [mem_procVisits hs.toCoherent hstarts.keys (hpick p _), and_assoc]
  refine and_congr_right fun _ => ⟨fun hat => ⟨?_, hat⟩, fun hat => hat.2⟩
  obtain ⟨s₀, hs₀, -⟩ := Option.map_eq_some_iff.mp hat
  exact ((hs.block_iff p _).mp (hstarts.home _ s₀ hs₀)).2

theorem Progress.Clean.addProcIn : (g.addProcIn prog release pick p).Clean := by
  have hstarts : Starts prog release p _ (g.flow prog release p) :=
    Progress.starts_flow hs hclean hp
  have hstart : Clean { g with entries := g.entries.erase p } := by
    intro q t ht
    rw [Table.get?_erase] at ht
    split at ht
    · cases ht
    · exact hclean q t ht
  refine hstart.foldl fun e he => ?_
  exact hstarts.nodup e.1 e.2 ((Table.mem_entries hstarts.keys).mp ((hpick p _).mem_iff.mp he))

include hfresh

/-- The operations of the procedure get the sets of its flow, and the others keep theirs. -/
theorem Progress.held_addProcIn (o : OpId) :
    (g.addProcIn prog release pick p).held.get? o =
      if o < prog.ops.size ∧ prog.procOf o = p then
        lockAt prog release (g.flow prog release p) o
      else g.held.get? o := by
  obtain ⟨hvisited, hkept⟩ := held_foldl (nodup_picked hs hpick hclean hp)
    (g := { g with entries := g.entries.erase p }) (o := o)
  rw [← foldl_addOps_eq] at hvisited hkept
  have hother : (∀ s, (o, s) ∉ procVisits prog release (pick p (g.flow prog release p).entries)) →
      (g.addProcIn prog release pick p).held.get? o = g.held.get? o := by
    intro hnone
    apply hkept
    intro hmem
    obtain ⟨⟨_, s⟩, hv, rfl⟩ := List.mem_map.mp hmem
    exact hnone s hv
  by_cases ho : o < prog.ops.size ∧ prog.procOf o = p
  · rw [if_pos ho]
    cases hat : lockAt prog release (g.flow prog release p) o with
    | some s => exact hvisited s ((mem_picked hs hpick hclean hp).mpr ⟨ho, hat⟩)
    | none =>
      rw [hother, hfresh o ho.2]
      intro s hv
      rw [((mem_picked hs hpick hclean hp).mp hv).2] at hat
      cases hat
  · rw [if_neg ho]
    apply hother
    intro s hv
    exact ho ((mem_picked hs hpick hclean hp).mp hv).1

theorem Notes.addProcIn {q : ProcId} (hq : q ≠ p)
    (h : Notes prog g.held.get? q (g.entries.get? q)) :
    Notes prog (g.addProcIn prog release pick p).held.get? q
      ((g.addProcIn prog release pick p).entries.get? q) := by
  have hstart : Notes prog g.held.get? q ((g.entries.erase p).get? q) := by
    rwa [Table.get?_erase, if_neg hq]
  unfold Progress.addProcIn
  rw [foldl_addOps_eq]
  apply Notes.foldl (nodup_picked hs hpick hclean hp) _ hstart
  rintro ⟨o, s⟩ hv
  exact hfresh o ((mem_picked hs hpick hclean hp).mp hv).1.2

end AddProc

variable (hs : prog.Shaped) (hrelease : ∀ f < prog.procs.size, ReleasesExactly prog release f)
  (htargets : ∀ o < prog.ops.size, ∀ f, (prog.kind o).callEdge? = some f → f < prog.procs.size)
  {pick : ProcId → List (BlockId × LockSet) → List (BlockId × LockSet)}
  (hpick : ∀ p l, (pick p l).Perm l)

include hs hrelease htargets hpick

theorem Progress.Exact.addProcIn {done : ProcId → Prop} {g : Progress} {p : ProcId}
    (h : g.Exact prog done) (hp : p < prog.procs.size) (hnew : ¬ done p)
    (hcallees : ∀ q, prog.Calls p q → ¬ done q ∧ q ≠ p) :
    (g.addProcIn prog release pick p).Exact prog (fun q => done q ∨ q = p) := by
  have hfresh : ∀ o, prog.procOf o = p → g.held.get? o = none := by
    intro o hop
    cases hget : g.held.get? o with
    | none => rfl
    | some s => exact absurd (hop ▸ (h.known o s hget).2) hnew
  have hheld : ∀ o, (g.addProcIn prog release pick p).held.get? o = _ :=
    Progress.held_addProcIn hs hpick h.clean hp hfresh
  have hexact : ∀ o < prog.ops.size, _ := fun o ho =>
    lockAt_exact hrelease htargets hs hp (h.clean.nodup_getD (p := p)) (o := o) ho
  have hnotes : ∀ q, q ≠ p → ¬ done q →
      Notes prog (g.addProcIn prog release pick p).held.get? q _ := fun q hq hd =>
    Notes.addProcIn hs hpick h.clean hp hfresh hq (h.notes q hd)
  have hclean : (g.addProcIn prog release pick p).Clean :=
    Progress.Clean.addProcIn hs hpick h.clean hp
  generalize g.addProcIn prog release pick p = g' at hheld hnotes hclean
  have hentry : ∀ q, done q ∨ q = p →
      EntryHeld prog g'.held.get? q = EntryHeld prog g.held.get? q := by
    intro q hq
    apply EntryHeld.congr
    intro o hk
    rw [hheld, if_neg]
    rintro ⟨hlt, hop⟩
    obtain ⟨hd, hne⟩ := hcallees q ⟨o, hlt, hop, hk⟩
    exact hq.elim hd hne
  refine ⟨hclean, ?known, ?defined, ?meets, ?notes⟩
  case known =>
    intro o s ho
    rw [hheld] at ho
    split at ho
    · next hown => exact ⟨hown.1, .inr hown.2⟩
    · exact ⟨(h.known o s ho).1, .inl (h.known o s ho).2⟩
  case defined =>
    intro o ho hd
    by_cases hop : prog.procOf o = p
    · rw [hheld, if_pos ⟨ho, hop⟩, hop]
      exact (hexact o ho).1
    · rw [hheld, if_neg fun hown => hop hown.2]
      exact h.defined o ho (hd.resolve_right hop)
  case meets =>
    intro o s ho x
    rw [hheld] at ho
    split at ho
    · next hown =>
      have hstart : (fun y => y ∈ (g.entries.get? p).getD []) = EntryHeld prog g.held.get? p :=
        funext fun y => propext ((h.notes p hnew).mem_getD y)
      rw [hown.2, hentry p (.inr rfl), ← hstart]
      exact (hexact o hown.1).2 s ho x
    · rw [hentry _ (.inl (h.known o s ho).2)]
      exact h.meets o s ho x
  case notes =>
    intro q hq
    obtain ⟨hd, hne⟩ := not_or.mp hq
    exact hnotes q hne hd

theorem exact_foldl {order : List ProcId} (hnd : order.Nodup)
    (hmem : ∀ p, p ∈ order ↔ p < prog.procs.size)
    (hcallees : ∀ before p after, order = before ++ p :: after →
      ∀ q, prog.Calls p q → q ∈ before) :
    (order.reverse.foldl (Progress.addProcIn prog release pick) {}).Exact prog (· ∈ order) :=
  CallGraph.foldl_callers_first (Q := Progress.Exact prog) hnd hcallees
    (fun _ _ p hp hexact hnew hlater =>
      hexact.addProcIn hs hrelease htargets hpick ((hmem p).mp hp) hnew hlater)
    exact_empty

end LockSets

namespace Program

variable {prog : Program} {held held' : OpId → Option LockSet}

/-- What a procedure starts with: nothing if a thread creation in reach starts it or no call in reach
enters it, and otherwise what all such calls hold. -/
def EntryLocks (prog : Program) (held : OpId → Option LockSet) (p : ProcId) (x : HeldLock) : Prop :=
  (∀ a, prog.InReach a → (prog.kind a).spawn? ≠ some p) ∧
    (∃ c, prog.InReach c ∧ (prog.kind c).callee? = some p) ∧
    ∀ c, prog.InReach c → (prog.kind c).callee? = some p → ∃ s, held c = some s ∧ x ∈ s

/-- The operations in reach have lock sets, which are the intersections over all paths from the entry
of their procedure. -/
structure MeetsPaths (prog : Program) (held : OpId → Option LockSet) : Prop where
  defined : ∀ o, (∃ s, held o = some s) ↔ prog.InReach o
  meets : ∀ o s, held o = some s → ∀ x, x ∈ s ↔
    prog.HeldOnPaths (prog.procOf o) (prog.EntryLocks held (prog.procOf o)) o x

theorem entryHeld_iff (hdefined : ∀ o, (∃ s, held o = some s) ↔ prog.InReach o) {p : ProcId}
    {x : HeldLock} : LockSets.EntryHeld prog held p x ↔ prog.EntryLocks held p x := by
  constructor
  · rintro ⟨⟨c, s, hc, hk⟩, hspawns, hcalls⟩
    refine ⟨fun a ha => ?_, ⟨c, (hdefined c).mp ⟨s, hc⟩, hk⟩, fun c hc hk => ?_⟩
    · obtain ⟨s, ha⟩ := (hdefined a).mpr ha
      exact hspawns a s ha
    · obtain ⟨s, hc⟩ := (hdefined c).mpr hc
      exact ⟨s, hc, hcalls c s hc hk⟩
  · rintro ⟨hspawns, ⟨c, hc, hk⟩, hcalls⟩
    obtain ⟨s, hs, -⟩ := hcalls c hc hk
    refine ⟨⟨c, s, hs, hk⟩, fun a s ha => hspawns a ((hdefined a).mp ⟨s, ha⟩), ?_⟩
    intro c s hc hk
    obtain ⟨s', hs', hx⟩ := hcalls c ((hdefined c).mp ⟨s, hc⟩) hk
    obtain rfl := Option.some.inj (hc.symm.trans hs')
    exact hx

theorem meetsPaths_of_exact (hs : prog.Shaped) {g : LockSets.Progress} {done : ProcId → Prop}
    (h : g.Exact prog done) (hall : ∀ p < prog.procs.size, done p) : prog.MeetsPaths g.held.get? := by
  have hdefined : ∀ o, (∃ s, g.held.get? o = some s) ↔ prog.InReach o := by
    intro o
    constructor
    · rintro ⟨s, ho⟩
      obtain ⟨hlt, hd⟩ := h.known o s ho
      exact (inReach_iff hs hlt).mpr ((h.defined o hlt hd).mp ⟨s, ho⟩)
    · intro hreach
      exact (h.defined o hreach.1 (hall _ (hs.procOf_lt o hreach.1))).mpr
        ((inReach_iff hs hreach.1).mp hreach)
  refine ⟨hdefined, fun o s ho x => ?_⟩
  have hentry : prog.EntryLocks g.held.get? (prog.procOf o) =
      LockSets.EntryHeld prog g.held.get? (prog.procOf o) :=
    funext fun y => propext (entryHeld_iff hdefined).symm
  rw [hentry]
  exact h.meets o s ho x

namespace MeetsPaths

variable (hs : prog.Shaped) (h : prog.MeetsPaths held) {o o' : OpId} {s : LockSet}

include hs h

theorem step (ho : held o = some s) (hreach : prog.InReach o') (hproc : prog.procOf o' = prog.procOf o)
    (hpath : ∀ ran, prog.LocalPath (prog.procOf o) ran o →
      prog.LocalPath (prog.procOf o) (ran ++ [o]) o') :
    ∃ s', held o' = some s' ∧ ∀ x ∈ s', prog.heldNext (· ∈ s) o x := by
  obtain ⟨s', ho'⟩ := (h.defined o').mpr hreach
  refine ⟨s', ho', fun x hx => ?_⟩
  have hbefore := (h.defined o).mp ⟨s, ho⟩
  have hthere := (h.meets o' s' ho' x).mp hx
  rw [hproc] at hthere
  have hnext : prog.heldNext _ o x :=
    hthere.heldAfter ((inReach_iff hs hbefore.1).mp hbefore) hpath
  exact heldNext_mono (fun y => (h.meets o s ho y).mpr) hnext

theorem next (ho : held o = some s) (hf : prog.Follows o o') :
    ∃ s', held o' = some s' ∧ ∀ x ∈ s', prog.heldNext (· ∈ s) o x := by
  obtain ⟨hlt, hreach⟩ := (h.defined o).mp ⟨s, ho⟩
  obtain ⟨hlt', hblock, -⟩ := hs.follows_iff.mp hf
  have hproc := hs.procOf_follows hf
  rw [← hproc, ← hblock] at hreach
  exact h.step hs ho ⟨hlt', hreach⟩ hproc fun ran hran =>
    hran.next (hs.not_isTerminator hlt hf) hf

theorem branch {b : BlockId} (ho : held o = some s) (hk : prog.kind o = .terminator .branch)
    (hsucc : prog.Succ (prog.blockOf o) b) (ho' : prog.opAt? b 0 = some o') :
    ∃ s', held o' = some s' ∧ ∀ x ∈ s', prog.heldNext (· ∈ s) o x := by
  obtain ⟨-, hreach⟩ := (h.defined o).mp ⟨s, ho⟩
  obtain ⟨hlt', rfl, -⟩ := hs.opAt?_iff.mp ho'
  have hproc := hs.procOf_succ hsucc ho'
  rw [← hproc] at hreach
  exact h.step hs ho ⟨hlt', hreach.tail hsucc⟩ hproc fun ran hran => hran.branch hk hsucc ho'

theorem entry {p : ProcId} (he : prog.entryOp? p = some o) :
    ∃ s, held o = some s ∧ ∀ x ∈ s, prog.EntryLocks held p x := by
  obtain ⟨-, hlt, rfl⟩ := hs.entryOp_ok he
  obtain ⟨s, ho⟩ := (h.defined o).mpr ((inReach_iff hs hlt).mpr ⟨[], .start he⟩)
  exact ⟨s, ho, fun x hx => (h.meets o s ho x).mp hx [] (.start he)⟩

end MeetsPaths

/-- Two tables that meet over all paths agree: callers determine what their callees start with. -/
theorem MeetsPaths.unique (hc : prog.Coherent) {order : List ProcId} (hnd : order.Nodup)
    (hmem : ∀ p, p ∈ order ↔ p < prog.procs.size)
    (hcallees : ∀ before p after, order = before ++ p :: after →
      ∀ q, prog.Calls p q → q ∈ before)
    (h : prog.MeetsPaths held) (h' : prog.MeetsPaths held') {o : OpId} {s : LockSet}
    (hs : held o = some s) : ∃ t, held' o = some t ∧ ∀ x, x ∈ t ↔ x ∈ s := by
  have hsome : ∀ o s, held o = some s → ∃ t, held' o = some t := fun o s hs =>
    (h'.defined o).mpr ((h.defined o).mp ⟨s, hs⟩)
  suffices hall : ∀ after before, order = before ++ after → ∀ o s t, prog.procOf o ∈ after →
      held o = some s → held' o = some t → ∀ x, x ∈ t ↔ x ∈ s by
    obtain ⟨t, ht⟩ := hsome o s hs
    have hlt := ((h.defined o).mp ⟨s, hs⟩).1
    exact ⟨t, ht, hall order [] rfl o s t ((hmem _).mpr (hc.procOf_lt o hlt)) hs ht⟩
  intro after
  induction after with
  | nil =>
    intro before _ o s t hin
    cases hin
  | cons p after ih =>
    intro before hsplit o s t hin hs ht x
    have hlater := ih (before ++ [p]) (by simpa using hsplit)
    rcases List.mem_cons.mp hin with hop | hin
    · have hentry : prog.EntryLocks held' p = prog.EntryLocks held p := by
        funext y
        refine propext (and_congr_right' (and_congr_right' (forall_congr' fun c =>
          forall_congr' fun hreach => forall_congr' fun hk => ?_)))
        have hcall : prog.Calls (prog.procOf c) p := ⟨c, hreach.1, rfl, callEdge?_of_callee? hk⟩
        have hcaller := CallGraph.callers_after hnd hcallees hsplit
          ((hmem _).mpr (hc.procOf_lt c hreach.1)) hcall
        obtain ⟨s, hs⟩ := (h.defined c).mpr hreach
        obtain ⟨t, ht⟩ := hsome c s hs
        simp [hs, ht, hlater c s t hcaller hs ht y]
      rw [h'.meets o t ht, h.meets o s hs, hop, hentry]
    · exact hlater o s t hin hs ht x

end Program

open LockSets in
theorem meetsPaths_foldl {prog : Program} (hs : prog.Shaped)
    (htargets : ∀ o < prog.ops.size, ∀ f, (prog.kind o).callEdge? = some f → f < prog.procs.size)
    {order : List ProcId} (hnd : order.Nodup) (hmem : ∀ p, p ∈ order ↔ p < prog.procs.size)
    (hcallees : ∀ before p after, order = before ++ p :: after →
      ∀ q, prog.Calls p q → q ∈ before)
    (pick : ProcId → List (BlockId × LockSet) → List (BlockId × LockSet))
    (hpick : ∀ p l, (pick p l).Perm l) : prog.MeetsPaths
      (order.reverse.foldl (Progress.addProcIn prog (releases prog order) pick) {}).held.get? := by
  have hrelease : ∀ f < prog.procs.size, ReleasesExactly prog (releases prog order) f :=
    fun f hf => releases_exact hs hcallees f ((hmem f).mpr hf)
  exact Program.meetsPaths_of_exact hs
    (exact_foldl hs hrelease htargets hpick hnd hmem hcallees) fun p => (hmem p).mpr

open LockSets in
/-- In a program that was built without recursion and whose targets exist, the locks that are recorded as
held at an operation are the intersection, over all paths that come to it from the entry of its
procedure, of what the procedure starts with and what the path makes of that. Operations that are out of
reach have no set. The order in which the blocks of each procedure are recorded makes no difference. -/
theorem lock_sets_meet_over_paths {prog : Program} (hbuilt : prog.Built)
    (htargets : ∀ o < prog.ops.size, ∀ f, (prog.kind o).callEdge? = some f → f < prog.procs.size)
    (hacyclic : ∀ p, ¬ Relation.TransGen prog.Calls p p) :
    ∃ order locks, prog.calls.postOrder prog = .ok order ∧ prog.lockSets order = .ok locks ∧
      prog.MeetsPaths locks.held? ∧
      ∀ pick : ProcId → List (BlockId × LockSet) → List (BlockId × LockSet),
        (∀ p l, (pick p l).Perm l) → ∀ g, g = order.reverse.foldl
          (Progress.addProcIn prog (releases prog order) pick) {} →
          prog.MeetsPaths g.held.get? ∧ ∀ o s, locks.held? o = some s →
            ∃ t, g.held.get? o = some t ∧ ∀ x, x ∈ t ↔ x ∈ s := by
  obtain ⟨hc, hv⟩ := hbuilt.coherent
  have hs := hc.shaped hv
  obtain ⟨order, horder, hnd, hmem, hcallees⟩ := CallGraph.postOrder_ok htargets hacyclic
  have hall : order.all (· < prog.procs.size) := by simpa using fun p => (hmem p).mp
  have hmeets := meetsPaths_foldl hs htargets hnd hmem hcallees
  have hown : prog.MeetsPaths (order.reverse.foldl
      (Progress.addProc prog (releases prog order)) {}).held.get? :=
    hmeets (fun _ l => l) fun _ l => .refl l
  refine ⟨order, ⟨(order.reverse.foldl (Progress.addProc prog (releases prog order)) {}).held⟩,
    horder, ?_, hown, ?_⟩
  · rw [Program.lockSets, if_pos hall]
  · rintro pick hpick _ rfl
    exact ⟨hmeets pick hpick, fun o s hs => hown.unique hc hnd hmem hcallees (hmeets pick hpick) hs⟩

def BuildStep.branchingLocksSteps : List BuildStep :=
  [.proc "main", .proc "helper", .block 0 "entry", .block 0 "loop", .block 0 "exit",
    .block 1 "entry", .op 0 (.library (.mutexLock (.named "m"))), .branch 0 [1, 2],
    .op 1 (.library (.readLock (.named "n"))), .branch 1 [1, 2], .op 2 (.call 1),
    .op 2 (.library (.mutexUnlock (.named "m"))), .op 2 (.terminator .ret),
    .op 3 (.memory .write (.named "x")), .op 3 (.terminator .ret)]

def Program.branchingLocks : Program :=
  ((BuildStep.applyAll {} BuildStep.branchingLocksSteps).toOption.getD default).1

theorem Program.built_branchingLocks : Program.branchingLocks.Built := by
  refine .inl ⟨BuildStep.branchingLocksSteps, .branchingLocks,
    [0, 1, 0, 1, 2, 3, 0, 1, 2, 3, 4, 5, 6, 7, 8], ?_, ?_⟩
  · decide +kernel
  · decide +kernel

/-- The helper starts with the lock of both branches only. -/
theorem locks_of_branches_meet : ∃ order locks,
    Program.branchingLocks.calls.postOrder Program.branchingLocks = .ok order ∧
    Program.branchingLocks.lockSets order = .ok locks ∧
    locks.held? 7 = some [⟨.named "m", true⟩] ∧
    Program.branchingLocks.EntryLocks locks.held? 1 ⟨.named "m", true⟩ ∧
    ¬ Program.branchingLocks.HeldOnPaths 0 (Program.branchingLocks.EntryLocks locks.held? 0) 4
      ⟨.named "n", false⟩ := by
  have htargets : ∀ o < Program.branchingLocks.ops.size, ∀ f,
      (Program.branchingLocks.kind o).callEdge? = some f → f < Program.branchingLocks.procs.size := by
    decide +kernel
  have hconcrete : Program.branchingLocks.calls.postOrder Program.branchingLocks = .ok [1, 0] := by
    decide +kernel
  have hrecorded := Checked.ok_of_toOption (x := Program.branchingLocks.lockSets [1, 0])
    (by decide +kernel)
  obtain ⟨order, locks, horder, hlocks, hmeets, -⟩ := lock_sets_meet_over_paths
    Program.built_branchingLocks htargets
    (CallGraph.acyclic_of_postOrder Program.built_branchingLocks.coherent.1 htargets hconcrete)
  obtain rfl := Except.ok.inj (hconcrete.symm.trans horder)
  obtain rfl := Except.ok.inj (hrecorded.symm.trans hlocks)
  refine ⟨_, _, hconcrete, hrecorded, by decide +kernel, ?_, ?_⟩
  · have hstart := (hmeets.meets 7 _ (by decide +kernel) ⟨.named "m", true⟩).mp
      (List.mem_singleton_self _) [] (.start (by decide +kernel))
    exact hstart
  · intro hheld
    have hmem := (hmeets.meets 4 [⟨.named "m", true⟩] (by decide +kernel) ⟨.named "n", false⟩).mpr
      hheld
    exact absurd hmem (by decide +kernel)

end YieldPlan
