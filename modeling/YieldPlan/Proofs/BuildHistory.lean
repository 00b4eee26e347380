import Mathlib.Data.List.Induction
import YieldPlan.DenseMap
import YieldPlan.Proofs.ShapeCheck

/-! Each step of assembling hands out the index of the part that it adds. The indices of one kind of
part are dense, and an index always stands for what its step said: the lists of the program hold the
answers of the steps that added to them, in order. Steps that use only indices which the same
builder has handed out never fail. -/

namespace YieldPlan

/-- The kinds of parts of a program. Each is numbered on its own. -/
inductive Part where
  | proc
  | block
  | op
  deriving DecidableEq, Repr

def Program.count (prog : Program) : Part → Nat
  | .proc => prog.procs.size
  | .block => prog.blocks.size
  | .op => prog.ops.size

namespace BuildStep

def part? : BuildStep → Option Part
  | .entrypoint _ => none
  | .proc _ => some .proc
  | .block .. => some .block
  | .op .. | .branch .. => some .op

/-- The parts that the step refers to. -/
def uses : BuildStep → List (Part × Nat)
  | .entrypoint _ | .proc _ => []
  | .block p _ => [(.proc, p)]
  | .op b kind => (.block, b) :: kind.callEdge?.toList.map fun p => (.proc, p)
  | .branch b succs => (.block, b) :: succs.map fun s => (.block, s)

def owner? : BuildStep → Option ProcId
  | .block p _ => some p
  | _ => none

def operation? : BuildStep → Option (BlockId × OpKind)
  | .op b kind => some (b, kind)
  | .branch b _ => some (b, .terminator .branch)
  | _ => none

def home? (s : BuildStep) : Option BlockId := s.operation?.map (·.1)

variable {s : BuildStep} {b : BlockId} {kind : OpKind}

theorem home?_of_operation? (h : s.operation? = some (b, kind)) : s.home? = some b := by
  rw [home?, h]
  rfl

theorem part?_of_operation? (h : s.operation? = some (b, kind)) : s.part? = some .op := by
  cases s <;> first | rfl | cases h

theorem owner?_of_operation? (h : s.operation? = some (b, kind)) : s.owner? = none := by
  cases s <;> first | rfl | cases h

end BuildStep

abbrev BuildHistory := List (BuildStep × Nat)

namespace BuildHistory

/-- The indices that the steps of a sort handed out. -/
def answers (h : BuildHistory) (sort : BuildStep → Prop) [DecidablePred sort] : List Nat :=
  (h.filter fun a => sort a.1).map (·.2)

def handedOut (h : BuildHistory) (part : Part) : List Nat := answers h fun s => s.part? = some part

def blocksOf (h : BuildHistory) (p : ProcId) : List BlockId := answers h fun s => s.owner? = some p

def opsOf (h : BuildHistory) (b : BlockId) : List OpId := answers h fun s => s.home? = some b

/-- The successors of a block after a step. -/
def succsAfter (b : BlockId) (succs : List BlockId) : BuildStep → List BlockId
  | .branch c new => if c = b then new else succs
  | _ => succs

theorem succsAfter_of_ne {b : BlockId} {s : BuildStep} (hs : s.home? ≠ some b)
    (succs : List BlockId) : succsAfter b succs s = succs := by
  cases s with
  | branch c new => exact if_neg fun hc => hs (congrArg some hc)
  | _ => rfl

/-- The successors that the last branch of a block names. -/
def succsOf (h : BuildHistory) (b : BlockId) : List BlockId :=
  h.foldl (fun succs a => succsAfter b succs a.1) []

/-- In the program the index that a step handed out stands for what the step says. -/
def Stands (h : BuildHistory) (prog : Program) : BuildStep → Nat → Prop
  | .entrypoint _, _ => True
  | .proc name, p =>
    prog.proc p = { name, blocks := blocksOf h p, entry := (blocksOf h p).head? }
  | .block p name, b =>
    prog.block b = { name, proc := p, ops := opsOf h b, succs := succsOf h b }
  | .op b kind, o => prog.op o = ⟨b, (opsOf h b).idxOf o, kind⟩
  | .branch b _, o => prog.op o = ⟨b, (opsOf h b).idxOf o, .terminator .branch⟩

variable {h : BuildHistory} {sort : BuildStep → Prop} [DecidablePred sort]

theorem stands_iff {prog : Program} {s : BuildStep} {o : OpId} {b : BlockId} {kind : OpKind}
    (hs : s.operation? = some (b, kind)) :
    Stands h prog s o ↔ prog.op o = ⟨b, (opsOf h b).idxOf o, kind⟩ := by
  cases s <;> first | (cases hs; rfl) | cases hs

theorem mem_answers {i : Nat} : i ∈ answers h sort ↔ ∃ s, (s, i) ∈ h ∧ sort s := by
  simp [answers]

theorem answers_eq_nil : answers h sort = [] ↔ ∀ s i, (s, i) ∈ h → ¬ sort s := by
  simp [answers]

theorem answers_append (h l : BuildHistory) :
    answers (h ++ l) sort = answers h sort ++ answers l sort := by
  simp [answers]

theorem answers_snoc (h : BuildHistory) (s : BuildStep) (i : Nat) :
    answers (h ++ [(s, i)]) sort = if sort s then answers h sort ++ [i] else answers h sort := by
  by_cases hs : sort s <;> simp [answers, hs]

theorem idxOf_append {s : BuildStep} {o : OpId} {b : BlockId} (hs : (s, o) ∈ h)
    (hhome : s.home? = some b) (l : BuildHistory) :
    (opsOf (h ++ l) b).idxOf o = (opsOf h b).idxOf o := by
  have hmem : o ∈ opsOf h b := mem_answers.mpr ⟨s, hs, hhome⟩
  rw [opsOf, answers_append]
  exact List.idxOf_append_of_mem hmem

theorem handedOut_snoc (h : BuildHistory) (s : BuildStep) (i : Nat) (part : Part) :
    handedOut (h ++ [(s, i)]) part =
      if s.part? = some part then handedOut h part ++ [i] else handedOut h part :=
  answers_snoc h s i

theorem blocksOf_snoc (h : BuildHistory) (s : BuildStep) (i : Nat) (p : ProcId) :
    blocksOf (h ++ [(s, i)]) p =
      if s.owner? = some p then blocksOf h p ++ [i] else blocksOf h p :=
  answers_snoc h s i

theorem opsOf_snoc (h : BuildHistory) (s : BuildStep) (i : Nat) (b : BlockId) :
    opsOf (h ++ [(s, i)]) b = if s.home? = some b then opsOf h b ++ [i] else opsOf h b :=
  answers_snoc h s i

theorem succsOf_snoc (h : BuildHistory) (s : BuildStep) (i : Nat) (b : BlockId) :
    succsOf (h ++ [(s, i)]) b = succsAfter b (succsOf h b) s := by
  simp [succsOf]

theorem blocksOf_other (s : BuildStep) (i : Nat) {p : ProcId} (hs : s.owner? ≠ some p) :
    blocksOf (h ++ [(s, i)]) p = blocksOf h p := by rw [blocksOf_snoc, if_neg hs]

theorem opsOf_other (s : BuildStep) (i : Nat) {b : BlockId} (hs : s.home? ≠ some b) :
    opsOf (h ++ [(s, i)]) b = opsOf h b := by rw [opsOf_snoc, if_neg hs]

theorem succsOf_other (s : BuildStep) (i : Nat) {b : BlockId} (hs : s.home? ≠ some b) :
    succsOf (h ++ [(s, i)]) b = succsOf h b := by rw [succsOf_snoc, succsAfter_of_ne hs]

theorem succsOf_of_opsOf {b : BlockId} (hb : opsOf h b = []) : succsOf h b = [] := by
  induction h using List.reverseRecOn with
  | nil => rfl
  | append_singleton h a ih =>
    obtain ⟨s, i⟩ := a
    rw [opsOf_snoc] at hb
    by_cases hs : s.home? = some b
    · simp [hs] at hb
    · rw [if_neg hs] at hb
      rw [succsOf_other s i hs, ih hb]

end BuildHistory

open BuildHistory

/-- The program has coherent tables, and it is what its history says. -/
structure Program.Records (prog : Program) (h : BuildHistory) : Prop extends prog.Coherent where
  dense : ∀ part, handedOut h part = List.range (prog.count part)
  stands : ∀ s i, (s, i) ∈ h → Stands h prog s i
  succ_lt : ∀ b, ∀ s ∈ (prog.block b).succs, s < prog.blocks.size

/-- With that history behind the program, every step uses only indices that steps before it have
handed out. -/
def OwnIndices : Program → BuildHistory → List BuildStep → Prop
  | _, _, [] => True
  | prog, h, s :: rest => (∀ u ∈ s.uses, u.2 ∈ handedOut h u.1) ∧
    ∀ next ∈ (s.apply prog).toOption, OwnIndices next.1 (h ++ [(s, next.2)]) rest

instance decidableOwnIndices :
    (prog : Program) → (h : BuildHistory) → (steps : List BuildStep) →
      Decidable (OwnIndices prog h steps)
  | _, _, [] => isTrue trivial
  | _, h, s :: rest =>
    have (next : Program × Nat) := decidableOwnIndices next.1 (h ++ [(s, next.2)]) rest
    inferInstanceAs (Decidable (_ ∧ _))

/-- All parts of the first program are in the second one and mean the same there. Only its lists may
have got longer, and blocks other successors. -/
structure Program.Extends (prog q : Program) : Prop where
  count : ∀ part, prog.count part ≤ q.count part
  proc : ∀ p < prog.procs.size, (q.proc p).name = (prog.proc p).name ∧
    (prog.proc p).blocks <+: (q.proc p).blocks ∧
    ∀ b, (prog.proc p).entry = some b → (q.proc p).entry = some b
  block : ∀ b < prog.blocks.size, (q.block b).name = (prog.block b).name ∧
    (q.block b).proc = (prog.block b).proc ∧ (prog.block b).ops <+: (q.block b).ops
  op : ∀ o < prog.ops.size, q.op o = prog.op o

namespace Program.Records

variable {prog q : Program} {h : BuildHistory}

theorem exists_step (hr : prog.Records h) (part : Part) (i : Nat) :
    i < prog.count part ↔ ∃ s, (s, i) ∈ h ∧ s.part? = some part := by
  rw [← List.mem_range, ← hr.dense, handedOut, mem_answers]

theorem proc_eq (hr : prog.Records h) {p : ProcId} (hp : p < prog.procs.size) :
    ∃ name, prog.proc p = { name, blocks := blocksOf h p, entry := (blocksOf h p).head? } := by
  obtain ⟨s, hs, hpart⟩ := (hr.exists_step .proc p).mp hp
  cases s with
  | proc name => exact ⟨name, hr.stands _ p hs⟩
  | _ => cases hpart

theorem block_eq (hr : prog.Records h) {b : BlockId} (hb : b < prog.blocks.size) :
    ∃ name p, prog.block b = { name, proc := p, ops := opsOf h b, succs := succsOf h b } := by
  obtain ⟨s, hs, hpart⟩ := (hr.exists_step .block b).mp hb
  cases s with
  | block p name => exact ⟨name, p, hr.stands _ b hs⟩
  | _ => cases hpart

theorem blockOf_eq (hr : prog.Records h) {s : BuildStep} {o : OpId} {b : BlockId}
    (hs : (s, o) ∈ h) (hhome : s.home? = some b) : o < prog.ops.size ∧ prog.blockOf o = b := by
  obtain ⟨⟨b, kind⟩, hs', rfl⟩ := Option.map_eq_some_iff.mp hhome
  have hop := (stands_iff hs').mp (hr.stands s o hs)
  have ho := (hr.exists_step .op o).mpr ⟨s, hs, BuildStep.part?_of_operation? hs'⟩
  exact ⟨ho, by rw [Program.blockOf, hop]⟩

theorem blocksOf_fresh (hr : prog.Records h) : blocksOf h prog.procs.size = [] := by
  apply answers_eq_nil.mpr
  intro s b hs howner
  cases s with
  | block p name =>
    cases howner
    have hb : b < prog.blocks.size := (hr.exists_step .block b).mpr ⟨_, hs, rfl⟩
    have hlt := hr.proc_lt b hb
    rw [hr.stands _ b hs] at hlt
    exact Nat.lt_irrefl _ hlt
  | _ => cases howner

theorem opsOf_fresh (hr : prog.Records h) : opsOf h prog.blocks.size = [] := by
  apply answers_eq_nil.mpr
  intro s o hs hhome
  obtain ⟨ho, hb⟩ := hr.blockOf_eq hs hhome
  exact Nat.lt_irrefl _ (hb ▸ hr.block_lt o ho)

theorem not_mem_opsOf (hr : prog.Records h) (b : BlockId) : prog.ops.size ∉ opsOf h b := by
  intro hmem
  obtain ⟨s, hs, hhome⟩ := mem_answers.mp hmem
  exact Nat.lt_irrefl _ (hr.blockOf_eq hs hhome).1

/-- A step that adds to the program, and keeps what its tables say up to what has been added to the
lists. -/
theorem grow (hr : prog.Records h) {s : BuildStep} {i : Nat} (hc : q.Coherent)
    (hdense : ∀ part, handedOut (h ++ [(s, i)]) part = List.range (q.count part))
    (hproc : ∀ p < prog.procs.size, q.proc p = { prog.proc p with
      blocks := blocksOf (h ++ [(s, i)]) p, entry := (blocksOf (h ++ [(s, i)]) p).head? })
    (hblock : ∀ b < prog.blocks.size, q.block b = { prog.block b with
      ops := opsOf (h ++ [(s, i)]) b, succs := succsOf (h ++ [(s, i)]) b })
    (hop : ∀ o < prog.ops.size, q.op o = prog.op o)
    (hnew : Stands (h ++ [(s, i)]) q s i)
    (hsuccs : ∀ b, ∀ c ∈ (q.block b).succs, c < q.blocks.size) : q.Records (h ++ [(s, i)]) := by
  refine ⟨hc, hdense, fun t k htk => ?_, hsuccs⟩
  rcases List.mem_append.mp htk with hold | hlast
  · have hstands := hr.stands t k hold
    have hlt : ∀ part, t.part? = some part → k < prog.count part :=
      fun part hpart => (hr.exists_step part k).mpr ⟨t, hold, hpart⟩
    cases t with
    | entrypoint name => trivial
    | proc name =>
      rw [Stands] at hstands ⊢
      rw [hproc k (hlt .proc rfl), hstands]
    | block p name =>
      rw [Stands] at hstands ⊢
      rw [hblock k (hlt .block rfl), hstands]
    | op b kind =>
      rw [Stands] at hstands ⊢
      rw [hop k (hlt .op rfl), hstands, idxOf_append hold rfl]
    | branch b succs =>
      rw [Stands] at hstands ⊢
      rw [hop k (hlt .op rfl), hstands, idxOf_append hold rfl]
  · cases List.mem_singleton.mp hlast
    exact hnew

theorem proc_kept (hr : prog.Records h) (s : BuildStep) (i : Nat) {p : ProcId}
    (hp : p < prog.procs.size) (hs : s.owner? ≠ some p) : prog.proc p = { prog.proc p with
      blocks := blocksOf (h ++ [(s, i)]) p, entry := (blocksOf (h ++ [(s, i)]) p).head? } := by
  obtain ⟨name, hproc⟩ := hr.proc_eq hp
  rw [blocksOf_other s i hs, hproc]

theorem block_kept (hr : prog.Records h) (s : BuildStep) (i : Nat) {b : BlockId}
    (hb : b < prog.blocks.size) (hs : s.home? ≠ some b) : prog.block b = { prog.block b with
      ops := opsOf (h ++ [(s, i)]) b, succs := succsOf (h ++ [(s, i)]) b } := by
  obtain ⟨name, p, hblock⟩ := hr.block_eq hb
  rw [opsOf_other s i hs, succsOf_other s i hs, hblock]

theorem entrypoint (hr : prog.Records h) (name : String) :
    Program.Records { prog with entrypoint := name } (h ++ [(.entrypoint name, 0)]) := by
  apply hr.grow
  · exact hr.toCoherent.setEntrypoint name
  · intro part
    rw [handedOut_snoc, hr.dense]
    cases part <;> rfl
  · exact fun p hp => hr.proc_kept (.entrypoint name) 0 hp (Option.some_ne_none p).symm
  · exact fun b hb => hr.block_kept (.entrypoint name) 0 hb (Option.some_ne_none b).symm
  · exact fun _ _ => rfl
  · trivial
  · exact hr.succ_lt

theorem addProc (hr : prog.Records h) (name : String) :
    (prog.addProc name).Records (h ++ [(.proc name, prog.procs.size)]) := by
  apply hr.grow
  · exact hr.toCoherent.addProc name
  · intro part
    rw [handedOut_snoc, hr.dense]
    cases part with
    | proc => simp [BuildStep.part?, Program.count, Program.addProc, List.range_succ]
    | _ => rfl
  · intro p hp
    rw [proc_addProc, if_neg (Nat.ne_of_lt hp)]
    exact hr.proc_kept (.proc name) _ hp (Option.some_ne_none p).symm
  · exact fun b hb => hr.block_kept (.proc name) _ hb (Option.some_ne_none b).symm
  · exact fun _ _ => rfl
  · have hblocks : blocksOf (h ++ [(.proc name, prog.procs.size)]) prog.procs.size = [] :=
      (blocksOf_other (.proc name) _ (Option.some_ne_none _).symm).trans hr.blocksOf_fresh
    rw [Stands, proc_addProc, if_pos rfl, hblocks]
    rfl
  · exact hr.succ_lt

theorem addBlock (hr : prog.Records h) {p : ProcId} (hp : p < prog.procs.size) (name : String) :
    (prog.addBlock p name).Records (h ++ [(.block p name, prog.blocks.size)]) := by
  have hsize : (prog.addBlock p name).blocks.size = prog.blocks.size + 1 := by
    simp [Program.addBlock]
  apply hr.grow
  · exact hr.toCoherent.addBlock hp name
  · intro part
    rw [handedOut_snoc, hr.dense]
    cases part with
    | proc => simp [BuildStep.part?, Program.count, Program.addBlock]
    | block => simp [BuildStep.part?, Program.count, hsize, List.range_succ]
    | op => rfl
  · intro r hr'
    rw [proc_addBlock hp]
    by_cases hrp : r = p
    · subst hrp
      obtain ⟨n, hproc⟩ := hr.proc_eq hr'
      simp [hproc, Procedure.addBlock, BuildStep.owner?, blocksOf_snoc]
    · rw [if_neg hrp]
      exact hr.proc_kept (.block p name) _ hr' fun heq => hrp (Option.some.inj heq).symm
  · intro b hb
    rw [block_addBlock, if_neg (Nat.ne_of_lt hb)]
    exact hr.block_kept (.block p name) _ hb (Option.some_ne_none b).symm
  · exact fun _ _ => rfl
  · have hops : opsOf (h ++ [(.block p name, prog.blocks.size)]) prog.blocks.size = [] :=
      (opsOf_other (.block p name) _ (Option.some_ne_none _).symm).trans hr.opsOf_fresh
    rw [Stands, block_addBlock, if_pos rfl, hops, succsOf_of_opsOf hops]
  · intro b c hc
    rw [block_addBlock] at hc
    rw [hsize]
    split at hc
    · cases hc
    · exact Nat.lt_succ_of_lt (hr.succ_lt b c hc)

theorem appendOp (hr : prog.Records h) {s : BuildStep} {b : BlockId} {kind : OpKind}
    (hs : s.operation? = some (b, kind)) (hb : b < prog.blocks.size) (hc : q.Coherent)
    (hprocs : q.procs = prog.procs) (hblocks : q.blocks.size = prog.blocks.size)
    (hops : q.ops.size = prog.ops.size + 1)
    (hblock : ∀ c, q.block c = if c = b then { prog.block b with
      ops := (prog.block b).ops ++ [prog.ops.size],
      succs := succsAfter b (prog.block b).succs s } else prog.block c)
    (hop : ∀ o, q.op o = if o = prog.ops.size then ⟨b, (prog.block b).ops.length, kind⟩
      else prog.op o)
    (hsuccs : ∀ c ∈ succsAfter b (prog.block b).succs s, c < prog.blocks.size) :
    q.Records (h ++ [(s, prog.ops.size)]) := by
  have hhome := s.home?_of_operation? hs
  apply hr.grow hc
  · intro part
    rw [handedOut_snoc, hr.dense, BuildStep.part?_of_operation? hs]
    cases part with
    | proc => simp [Program.count, hprocs]
    | block => simp [Program.count, hblocks]
    | op => simp [Program.count, hops, List.range_succ]
  · intro p hp
    have howner : s.owner? ≠ some p := by
      rw [BuildStep.owner?_of_operation? hs]
      exact (Option.some_ne_none p).symm
    rw [proc, proc?, hprocs]
    exact hr.proc_kept s _ hp howner
  · intro c hlt
    rw [hblock]
    by_cases hcb : c = b
    · subst hcb
      obtain ⟨name, p, hsame⟩ := hr.block_eq hlt
      simp [hsame, hhome, opsOf_snoc, succsOf_snoc]
    · have hne : s.home? ≠ some c := by
        rw [hhome]
        exact fun heq => hcb (Option.some.inj heq).symm
      rw [if_neg hcb]
      exact hr.block_kept s _ hlt hne
  · intro o ho
    rw [hop, if_neg (Nat.ne_of_lt ho)]
  · obtain ⟨name, p, hsame⟩ := hr.block_eq hb
    have hplace : (opsOf h b ++ [prog.ops.size]).idxOf prog.ops.size = (opsOf h b).length := by
      rw [List.idxOf_append_of_notMem (hr.not_mem_opsOf b), List.idxOf_cons_self, Nat.add_zero]
    rw [stands_iff hs, hop, if_pos rfl, opsOf_snoc, if_pos hhome, hplace, hsame]
  · intro c d hd
    rw [hblock] at hd
    rw [hblocks]
    split at hd
    · exact hsuccs d hd
    · exact hr.succ_lt c d hd

theorem push (hr : prog.Records h) {b : BlockId} (hb : b < prog.blocks.size) (kind : OpKind) :
    (prog.push b kind).Records (h ++ [(.op b kind, prog.ops.size)]) := by
  apply hr.appendOp rfl hb (hr.toCoherent.push hb kind) rfl
  · simp [Program.push]
  · simp [Program.push]
  · exact block_push hb kind
  · exact op_push kind
  · exact hr.succ_lt b

theorem branch (hr : prog.Records h) {b : BlockId} (hb : b < prog.blocks.size)
    {succs : List BlockId} (hsuccs : ∀ c ∈ succs, c < prog.blocks.size) :
    (prog.branch b succs).Records (h ++ [(.branch b succs, prog.ops.size)]) := by
  have hafter : succsAfter b (prog.block b).succs (.branch b succs) = succs := if_pos rfl
  have hsize : (prog.retarget b succs).blocks.size = prog.blocks.size := by simp [retarget]
  have hretarget : ∀ c, (prog.retarget b succs).block c =
      if c = b then { prog.block b with succs } else prog.block c := by
    intro c
    simp only [block, block?, retarget, Array.getElem?_modify]
    by_cases hcb : b = c
    · subst hcb
      simp [hb]
    · simp [hcb, Ne.symm hcb]
  apply hr.appendOp rfl hb (hr.toCoherent.branch hb succs) rfl
  · simp [Program.branch, Program.push]
  · simp [Program.branch, Program.push]
  · intro c
    show ((prog.retarget b succs).push b _).block c = _
    rw [block_push (hsize.symm ▸ hb), hretarget, hretarget, if_pos rfl, hafter]
    split <;> rfl
  · intro o
    show ((prog.retarget b succs).push b _).op o = _
    rw [op_push, hretarget, if_pos rfl]
    rfl
  · rwa [hafter]

theorem empty : Program.Records {} [] where
  toCoherent := coherent_empty "main"
  dense part := by cases part <;> rfl
  stands s i hs := by cases hs
  succ_lt b s hs := by
    rw [block_of_le (Nat.zero_le b)] at hs
    cases hs

theorem apply (hr : prog.Records h) {s : BuildStep} (hs : ∀ u ∈ s.uses, u.2 < prog.count u.1) :
    ∃ q i, s.apply prog = .ok (q, i) ∧ q.Records (h ++ [(s, i)]) := by
  cases s with
  | entrypoint name => exact ⟨_, _, rfl, hr.entrypoint name⟩
  | proc name => exact ⟨_, _, rfl, hr.addProc name⟩
  | block p name =>
    have hp : p < prog.procs.size := hs (.proc, p) (by simp [BuildStep.uses])
    exact ⟨_, _, if_pos hp, hr.addBlock hp name⟩
  | op b kind =>
    have hb : b < prog.blocks.size := hs (.block, b) (by simp [BuildStep.uses])
    exact ⟨_, _, if_pos hb, hr.push hb kind⟩
  | branch b succs =>
    have hb : b < prog.blocks.size := hs (.block, b) (by simp [BuildStep.uses])
    have hsuccs : ∀ c ∈ succs, c < prog.blocks.size :=
      fun c hc => hs (.block, c) (by simp [BuildStep.uses, hc])
    exact ⟨_, _, if_pos hb, hr.branch hb hsuccs⟩

theorem run (hr : prog.Records h) {steps : List BuildStep} (hown : OwnIndices prog h steps) :
    ∃ q is, BuildStep.applyAll prog steps = .ok (q, is) ∧ is.length = steps.length ∧
      q.Records (h ++ steps.zip is) := by
  induction steps generalizing prog h with
  | nil => exact ⟨prog, [], rfl, rfl, by simpa using hr⟩
  | cons s rest ih =>
    obtain ⟨huses, hrest⟩ := hown
    obtain ⟨q, i, hq, hrq⟩ := hr.apply fun u hu => by
      rw [← List.mem_range, ← hr.dense]
      exact huses u hu
    obtain ⟨r, is, hrun, hlength, hrr⟩ := ih hrq (hrest (q, i) (by rw [hq]; rfl))
    refine ⟨r, i :: is, ?_, by simp [hlength], by simpa using hrr⟩
    rw [BuildStep.applyAll, hq, Checked.ok_bind]
    exact Checked.bind_ok.mpr ⟨(r, is), hrun, rfl⟩

theorem count_eq (hr : prog.Records h) (part : Part) :
    prog.count part = (handedOut h part).length := by rw [hr.dense, List.length_range]

theorem count_le (hr : prog.Records h) (part : Part) : prog.count part ≤ h.length := by
  rw [hr.count_eq, handedOut, answers, List.length_map]
  exact List.length_filter_le _ _

theorem extends_of_append {l : BuildHistory} (hr : prog.Records h) (hq : q.Records (h ++ l)) :
    prog.Extends q := by
  have hold : ∀ part i, i < prog.count part →
      ∃ s, (s, i) ∈ h ∧ s.part? = some part ∧ Stands h prog s i ∧ Stands (h ++ l) q s i := by
    intro part i hi
    obtain ⟨s, hs, hpart⟩ := (hr.exists_step part i).mp hi
    exact ⟨s, hs, hpart, hr.stands s i hs, hq.stands s i (List.mem_append_left l hs)⟩
  have hplace : ∀ s b kind o, (s, o) ∈ h → s.operation? = some (b, kind) →
      q.op o = prog.op o := by
    intro s b kind o hs hop
    rw [(stands_iff hop).mp (hr.stands s o hs),
      (stands_iff hop).mp (hq.stands s o (List.mem_append_left l hs)),
      idxOf_append hs (s.home?_of_operation? hop)]
  constructor
  · intro part
    rw [hr.count_eq, hq.count_eq, handedOut, handedOut, answers_append, List.length_append]
    exact Nat.le_add_right _ _
  · intro p hp
    obtain ⟨s, -, hpart, hs, hs'⟩ := hold .proc p hp
    cases s with
    | proc name =>
      rw [Stands] at hs hs'
      have happend : blocksOf (h ++ l) p = blocksOf h p ++ blocksOf l p := answers_append h l
      rw [hs, hs', happend]
      refine ⟨rfl, List.prefix_append _ _, fun b hb => ?_⟩
      have hb : (blocksOf h p).head? = some b := hb
      simp [hb]
    | _ => cases hpart
  · intro b hb
    obtain ⟨s, -, hpart, hs, hs'⟩ := hold .block b hb
    cases s with
    | block p name =>
      rw [Stands] at hs hs'
      have happend : opsOf (h ++ l) b = opsOf h b ++ opsOf l b := answers_append h l
      rw [hs, hs', happend]
      exact ⟨rfl, rfl, List.prefix_append _ _⟩
    | _ => cases hpart
  · intro o ho
    obtain ⟨s, hs, hpart, -, -⟩ := hold .op o ho
    cases s with
    | op b kind => exact hplace _ b kind o hs rfl
    | branch b succs => exact hplace _ b _ o hs rfl
    | _ => cases hpart

end Program.Records

abbrev Part.Entry : Part → Type
  | .proc => Procedure
  | .block => Block
  | .op => Operation

def indexWidth : Nat := 32

/-- The parts of a kind as the table that hands out their indices. -/
def Program.table (prog : Program) : (part : Part) → DenseMap part.Entry
  | .proc => { width := indexWidth, data := prog.procs }
  | .block => { width := indexWidth, data := prog.blocks }
  | .op => { width := indexWidth, data := prog.ops }

theorem Program.capacity_table (prog : Program) (part : Part) :
    (prog.table part).capacity = 2 ^ indexWidth := by cases part <;> rfl

theorem Program.size_table (prog : Program) (part : Part) :
    (prog.table part).size = prog.count part := by cases part <;> rfl

/-- A step hands out the next key of the table to which it adds. -/
theorem BuildStep.answer_eq_nextKey {s : BuildStep} {prog q : Program} {i : Nat} {part : Part}
    (hs : s.apply prog = .ok (q, i)) (hpart : s.part? = some part)
    (hroom : prog.count part < 2 ^ indexWidth) : i = (prog.table part).nextKey := by
  have hnext : (prog.table part).nextKey = prog.count part := by
    rw [DenseMap.nextKey_of_lt _ (by rwa [prog.size_table, prog.capacity_table]), prog.size_table]
  rw [hnext]
  cases s with
  | entrypoint => cases hpart
  | proc =>
    cases hpart
    cases hs
    rfl
  | block | op | branch =>
    cases hpart
    rw [apply] at hs
    split at hs <;> cases hs
    rfl

namespace Program.Records

variable {prog : Program} {h : BuildHistory}

theorem keys_table (hr : prog.Records h) (hroom : h.length ≤ 2 ^ indexWidth) (part : Part) :
    (prog.table part).keys = handedOut h part := by
  rw [DenseMap.keys_of_size_le, prog.size_table, hr.dense]
  rw [prog.size_table, prog.capacity_table]
  exact Nat.le_trans (hr.count_le part) hroom

theorem get?_table (hr : prog.Records h) (hroom : h.length ≤ 2 ^ indexWidth) {part : Part}
    {i : Nat} (hi : i ∈ handedOut h part) :
    ∃ entry, (prog.table part).data[i]? = some entry ∧ (prog.table part).get? i = some entry := by
  have hlt : i < prog.count part := by rwa [hr.dense, List.mem_range] at hi
  have hroom : i < (prog.table part).capacity := by
    rw [prog.capacity_table]
    exact Nat.lt_of_lt_of_le hlt (Nat.le_trans (hr.count_le part) hroom)
  have hread : (prog.table part).data[i]? = some _ :=
    Array.getElem?_eq_getElem (lt_of_lt_of_eq hlt (prog.size_table part).symm)
  exact ⟨_, hread, (DenseMap.get?_of_lt _ hroom).trans hread⟩

end Program.Records

/-- As long as the steps fit into the width of an index, the keys of the tables are the indices that
the steps handed out, and each of them reads the part at its own place. -/
theorem own_indices_are_keys {steps : List BuildStep} (hown : OwnIndices {} [] steps)
    (hroom : steps.length ≤ 2 ^ indexWidth) :
    ∃ prog is, BuildStep.applyAll {} steps = .ok (prog, is) ∧
      ∀ part, (prog.table part).keys = handedOut (steps.zip is) part ∧
        ∀ i ∈ handedOut (steps.zip is) part, ∃ entry,
          (prog.table part).data[i]? = some entry ∧ (prog.table part).get? i = some entry := by
  obtain ⟨prog, is, hrun, hlength, hr⟩ := Program.Records.empty.run hown
  rw [List.nil_append] at hr
  have hfits : (steps.zip is).length ≤ 2 ^ indexWidth := by
    rwa [List.length_zip, hlength, Nat.min_self]
  exact ⟨prog, is, hrun, fun part => ⟨hr.keys_table hfits part, fun i => hr.get?_table hfits⟩⟩

/-- Steps that use only indices which the same builder has handed out all succeed. The tables of the
program are coherent and say what the steps said: indices are dense, and later steps change the
meaning of none. There are no more parts of a kind than steps, so an index has room wherever the
number of steps has. Finishing accepts the program exactly if it is shaped, and reports it as
malformed otherwise. -/
theorem own_indices_assemble_coherent_programs {steps : List BuildStep}
    (hown : OwnIndices {} [] steps) :
    ∃ prog is, BuildStep.applyAll {} steps = .ok (prog, is) ∧ is.length = steps.length ∧
      prog.Records (steps.zip is) ∧ (∀ part, prog.count part ≤ steps.length) ∧
      (∀ later, OwnIndices prog (steps.zip is) later →
        ∃ q js, BuildStep.applyAll prog later = .ok (q, js) ∧
          q.Records (steps.zip is ++ later.zip js) ∧ prog.Extends q) ∧
      (prog.finish = .ok prog ↔ prog.Shaped) ∧
      (¬ prog.Shaped → ∃ m : Malformation, prog.finish = m.fail) := by
  obtain ⟨prog, is, hrun, hlength, hr⟩ := Program.Records.empty.run hown
  rw [List.nil_append] at hr
  have haccepts := hr.toCoherent.finish_accepts hr.succ_lt
  refine ⟨prog, is, hrun, hlength, hr, fun part => ?_, fun later hlater => ?_, ⟨?_, ?_⟩, ?_⟩
  · have hle := hr.count_le part
    rwa [List.length_zip, hlength, Nat.min_self] at hle
  · obtain ⟨q, js, hq, -, hrq⟩ := hr.run hlater
    exact ⟨q, js, hq, hrq, hr.extends_of_append hrq⟩
  · intro hok
    rcases haccepts with ⟨hs, -⟩ | ⟨-, m, hm⟩
    · exact hs
    · rw [hok] at hm
      cases hm
  · intro hs
    rcases haccepts with ⟨-, q, hq, rfl⟩ | ⟨hno, -⟩
    · exact hq
    · exact absurd hs hno
  · intro hno
    rcases haccepts with ⟨hs, -⟩ | ⟨-, hm⟩
    · exact absurd hs hno
    · exact hm

/-- Two procedures whose blocks and operations are added in turns. -/
def interleavedSteps : List BuildStep :=
  [.proc "main", .proc "worker", .block 1 "entry", .block 0 "entry",
    .op 0 (.memory .write .unknown), .block 0 "exit", .op 1 (.library (.threadCreate 1)),
    .branch 1 [2], .op 0 (.terminator .ret), .op 2 (.terminator .ret)]

/-- A block is ended again, with other successors, and goes on behind its terminators. -/
def endedAgain : List BuildStep := [.branch 1 [1, 2], .op 1 .local]

theorem interleaved_steps_assemble_shaped_program :
    OwnIndices {} [] interleavedSteps ∧
    ∃ prog is, BuildStep.applyAll {} interleavedSteps = .ok (prog, is) ∧
      prog.Records (interleavedSteps.zip is) ∧ prog.Shaped ∧
      (prog.proc 0).entry = some 1 ∧
      OwnIndices prog (interleavedSteps.zip is) endedAgain ∧
      ∃ q js, BuildStep.applyAll prog endedAgain = .ok (q, js) ∧ prog.Extends q ∧
        (q.block 1).ops = [1, 2, 5, 6] ∧
        q.finish = (Malformation.innerTerminator "main" "entry" 1).fail := by
  have hown : OwnIndices {} [] interleavedSteps := by decide +kernel
  obtain ⟨prog, is, hrun, -, hr, -, hlater, hfinish, -⟩ :=
    own_indices_assemble_coherent_programs hown
  obtain ⟨rfl, rfl⟩ := Prod.mk.inj (Except.ok.inj
    (hrun.symm.trans (Checked.ok_of_toOption (by decide +kernel))))
  obtain ⟨q, js, hq, -, hext⟩ := hlater endedAgain (by decide +kernel)
  obtain ⟨rfl, rfl⟩ := Prod.mk.inj (Except.ok.inj
    (hq.symm.trans (Checked.ok_of_toOption (by decide +kernel))))
  refine ⟨hown, _, _, hrun, hr, ?_, by decide +kernel, by decide +kernel, _, _, hq, hext,
    by decide +kernel, ?_⟩
  · exact hfinish.mp (Checked.ok_of_toOption (by decide +kernel))
  · decide +kernel

end YieldPlan
