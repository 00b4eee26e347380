import YieldPlan.Proofs.CallOrder
import YieldPlan.Proofs.ReachabilitySegments

/-! Procedures are added callees first, so when a procedure is added, all that its components lead
to is done. The finished graphs answer for every two operations and every two blocks as paths of
control do, and a procedure may return exactly if control runs from its entry to one of its returns.
-/

namespace YieldPlan.Reachability

open YieldPlan.Quotient

variable {prog : Program} {r : Reachability} {done : BlockId → Prop}

/-- Control can run from the entry of a procedure to one of its returns. -/
def Returns (prog : Program) (back : ProcId → Prop) (f : ProcId) : Prop :=
  ∃ o < prog.ops.size, prog.procOf o = f ∧ prog.kind o = .terminator .ret ∧
    ∃ e, prog.entryOp? f = some e ∧ (o = e ∨ Relation.TransGen (prog.Flow back) e o)

/-- Both graphs are exact for the blocks that are done. -/
structure At (prog : Program) (done : BlockId → Prop) (r : Reachability) : Prop where
  blocks : BlocksAt prog done r.blocks
  ops : OpsAt prog r.returns (opsOf prog done) r.ops
  returns : ∀ f v, r.returns.get? f = some v → ∀ back, Agrees r.returns back →
    (v = true ↔ Returns prog back f)

theorem At.congr (h : At prog done r) {done' : BlockId → Prop} (hd : ∀ b, done b ↔ done' b) :
    At prog done' r where
  blocks := Stage.congr h.blocks hd
  ops back hback := (h.ops back hback).congr fun _ => and_congr_right fun _ => hd _
  returns := h.returns

theorem at_empty (prog : Program) : At prog (fun _ => False) {} where
  blocks := ⟨ready_empty _, exact_empty, fun e => by simp [nodeOf?, Table.get?], fun _ h => h.elim,
    fun h => by simp [nodeOf?, Table.get?] at h⟩
  ops _ _ := ⟨ready_empty _, exact_empty, fun e => by simp [nodeOf?, Table.get?, opsOf],
    fun _ h => h.1, fun h => by simp [nodeOf?, Table.get?] at h⟩
  returns f v h := by simp [Table.get?] at h

theorem addComponents_ok (hs : prog.Shaped) (hmax : prog.ops.size ≤ BitMatrix.maxRows)
    (hmax' : prog.blocks.size ≤ BitMatrix.maxRows) {cs : List (List BlockId)}
    (h : At prog done r)
    (hcs : ∀ before c after, cs = before ++ c :: after →
      Component prog r.returns (fun b => done b ∨ b ∈ before.flatten) c) :
    ∃ r', r.addComponents prog cs = .ok r' ∧ r'.returns = r.returns ∧
      At prog (fun b => done b ∨ b ∈ cs.flatten) r' := by
  induction cs generalizing r done with
  | nil => exact ⟨r, rfl, rfl, h.congr fun b => by simp⟩
  | cons c cs ih =>
    have hc : Component prog r.returns done c := by
      have := hcs [] c cs rfl
      simpa using this
    have hhome : ∀ b, done b → ∃ n, r.ops.nodeOf? (prog.firstOp b) = some n := by
      intro b hb
      exact ⟨_, h.ops.home (opsOf_firstOp hs (Stage.lt h.blocks b hb) hb)⟩
    obtain ⟨gb, n, hb, hgb⟩ := addComponent_ok hs hmax' hc h.blocks hhome
    have hblk : ∀ b, done b → ∃ n, gb.nodeOf? b = some n :=
      fun b hd => (Stage.home hgb b).mpr (.inl hd)
    obtain ⟨go, ho, hgo⟩ := addOps_ok (r := { r with blocks := gb }) hs hmax hc hblk h.ops n
    have h' : At prog (fun b => done b ∨ b ∈ c) { r with blocks := gb, ops := go } :=
      ⟨hgb, hgo, h.returns⟩
    obtain ⟨r', hr', hret, hat⟩ := ih h' fun before d after hsplit => by
      have := hcs (c :: before) d after (by rw [hsplit]; rfl)
      simpa [or_assoc] using this
    refine ⟨r', ?_, hret, hat.congr fun b => by rw [List.flatten_cons, List.mem_append, or_assoc]⟩
    simp only [addComponents, hb, ho, hr', Checked.ok_bind]

theorem query_ok {returns : Table ProcId Bool} {doneOp : OpId → Prop}
    (h : OpsAt prog returns doneOp r.ops) {a b : OpId} (ha : doneOp a) (hb : doneOp b) :
    ∃ ans, r.query prog a b = .ok ans ∧ ∀ back, Agrees returns back →
      (ans = true ↔ Relation.TransGen (prog.Flow back) a b) := by
  have hna := h.home ha
  have hnb := h.home hb
  simp only [query, hna, hnb]
  by_cases hab : r.ops.homeOf a = r.ops.homeOf b
  · obtain ⟨node, hnode, -, hloops⟩ := h.ready.node_ok (h.home_lt ha)
    refine ⟨node.nonTrivial || (prog.op a).position < (prog.op b).position,
      by rw [if_pos hab, hnode]; rfl, fun back hback => ?_⟩
    rw [← (h back hback).exact.same hna (hab ▸ hnb), Bool.or_eq_true, decide_eq_true_eq, hloops]
  · refine ⟨_, by rw [if_neg hab]; exact h.ready.reaches_ok (h.home_lt ha) (h.home_lt hb),
      fun back hback => ?_⟩
    exact (h back hback).exact.apart hna hnb hab

theorem queryBlock_ok (h : BlocksAt prog done r.blocks) {a b : BlockId} (ha : done a)
    (hb : done b) :
    ∃ ans, r.queryBlock a b = .ok ans ∧ (ans = true ↔ Relation.TransGen prog.BlockFlow a b) := by
  have hna := h.home ha
  have hnb := h.home hb
  have hready := Stage.ready h
  simp only [queryBlock, hna, hnb]
  by_cases hab : r.blocks.homeOf a = r.blocks.homeOf b
  · obtain ⟨node, hnode, -, hloops⟩ := hready.node_ok (h.home_lt ha)
    refine ⟨node.nonTrivial, by rw [if_pos hab, hnode]; rfl, ?_⟩
    rw [← (Stage.exact h).same hna (hab ▸ hnb), or_false, hloops]
  · refine ⟨_, by rw [if_neg hab]; exact hready.reaches_ok (h.home_lt ha) (h.home_lt hb), ?_⟩
    exact (Stage.exact h).apart hna hnb hab

theorem hasReturn_ok {returns : Table ProcId Bool} {doneOp : OpId → Prop}
    (h : OpsAt prog returns doneOp r.ops) {e : OpId} (he : doneOp e) {os : List OpId}
    (hos : ∀ o ∈ os, doneOp o) :
    ∃ v, r.hasReturn prog e os = .ok v ∧ ∀ back, Agrees returns back →
      (v = true ↔ ∃ o ∈ os, prog.kind o = .terminator .ret ∧
        (o = e ∨ Relation.TransGen (prog.Flow back) e o)) := by
  induction os with
  | nil => exact ⟨false, rfl, by simp⟩
  | cons o os ih =>
    obtain ⟨v, hv, hiff⟩ := ih fun x hx => hos x (List.mem_cons_of_mem _ hx)
    rw [hasReturn]
    by_cases hk : prog.kind o = .terminator .ret
    · rw [if_pos hk]
      by_cases hoe : o = e
      · exact ⟨true, by rw [if_pos hoe]; rfl, fun back _ =>
          iff_of_true rfl ⟨o, List.mem_cons_self, hk, .inl hoe⟩⟩
      · obtain ⟨ans, hans, hflow⟩ := query_ok h he (hos o List.mem_cons_self)
        cases hcase : ans with
        | true =>
          refine ⟨true, by rw [if_neg hoe, hans, hcase]; rfl, fun back hback => ?_⟩
          refine iff_of_true rfl ⟨o, List.mem_cons_self, hk, .inr ?_⟩
          exact (hflow back hback).mp hcase
        | false =>
          refine ⟨v, by rw [if_neg hoe, hans, hcase]; exact hv, fun back hback => ?_⟩
          rw [hiff back hback, List.exists_mem_cons_iff, ← hflow back hback, hcase]
          simp [hoe]
    · refine ⟨v, by rw [if_neg hk]; exact hv, fun back hback => ?_⟩
      rw [hiff back hback, List.exists_mem_cons_iff]
      simp [hk]

/-- What a procedure enters is done. -/
def CalleesDone (prog : Program) (returns : Table ProcId Bool) (done : BlockId → Prop)
    (p : ProcId) : Prop :=
  ∀ q, prog.Calls p q → q < prog.procs.size ∧ (∀ b ∈ (prog.proc q).blocks, done b) ∧
    ∃ v, returns.get? q = some v

theorem blockComponents_ok (hs : prog.Shaped) {returns : Table ProcId Bool} {p : ProcId}
    (hfresh : ∀ b ∈ (prog.proc p).blocks, ¬ done b) (hcallee : CalleesDone prog returns done p) :
    (∀ b, b ∈ (blockComponents prog (prog.proc p)).flatten ↔ b ∈ (prog.proc p).blocks) ∧
      ∀ before c after, blockComponents prog (prog.proc p) = before ++ c :: after →
        Component prog returns (fun b => done b ∨ b ∈ before.flatten) c := by
  have hclosed : ∀ b ∈ (prog.proc p).blocks, ∀ s ∈ (prog.block b).succs.reverse,
      s ∈ (prog.proc p).blocks := by
    intro b hb s hsucc
    obtain ⟨hlt, hbp⟩ := (hs.block_iff p b).mp hb
    obtain ⟨hslt, hsp⟩ := hs.succ b hlt s (List.mem_reverse.mp hsucc)
    exact (hs.block_iff p s).mpr ⟨hslt, hsp.trans hbp⟩
  have hcs := Graph.components_spec hclosed
  have hreaches : Graph.Reaches (fun b => (prog.block b).succs.reverse) =
      Relation.ReflTransGen prog.Succ := by
    simp only [Graph.Reaches, List.mem_reverse]
    rfl
  refine ⟨hcs.mem_iff, fun before c after hsplit => ?_⟩
  have hcm : c ∈ Graph.components (prog.proc p).blocks fun b => (prog.block b).succs.reverse := by
    rw [show Graph.components _ _ = _ from hsplit]
    simp
  have hblocks : ∀ b ∈ c, b ∈ (prog.proc p).blocks :=
    fun b hb => (hcs.mem_iff b).mp (List.mem_flatten.mpr ⟨c, hcm, hb⟩)
  refine ⟨hcs.ne_nil c hcm, (List.nodup_flatten.mp hcs.nodup).1 c hcm, ?_, ?_, ?_, ?_, ?_⟩
  · exact fun b hb => ((hs.block_iff p b).mp (hblocks b hb)).1
  · rintro b hb (hd | hbefore)
    · exact hfresh b (hblocks b hb) hd
    · have hnd := hcs.nodup
      rw [show Graph.components _ _ = _ from hsplit, List.flatten_append, List.flatten_cons] at hnd
      exact (List.nodup_append.mp hnd).2.2 b hbefore b (List.mem_append_left _ hb) rfl
  · intro b hb d
    rw [hcs.strong c hcm b hb d, Graph.Mutual, hreaches]
  · intro b hb s hsucc
    have := hcs.later before c after hsplit b hb s (.single (List.mem_reverse.mpr hsucc))
    exact this.imp_right .inr
  · intro b hb o ho f hf
    obtain ⟨holt, hob⟩ := hs.mem_ops.mp ho
    have hcalls : prog.Calls p f := by
      refine ⟨o, holt, ?_, hf⟩
      rw [Program.procOf, hob]
      exact ((hs.block_iff p b).mp (hblocks b hb)).2
    obtain ⟨hlt, hd, hv⟩ := hcallee f hcalls
    obtain ⟨-, -, -, helt, hep, -⟩ := hs.entry_ok hlt
    exact ⟨hlt, .inl (hd _ ((hs.block_iff f _).mpr ⟨helt, hep⟩)), hv⟩

theorem mem_procOps (hs : prog.Shaped) {p : ProcId} {o : OpId} :
    o ∈ prog.procOps p ↔ o < prog.ops.size ∧ prog.procOf o = p := by
  simp only [Program.procOps, List.mem_flatMap, hs.mem_ops, hs.block_iff]
  constructor
  · rintro ⟨b, ⟨-, hbp⟩, ho, hob⟩
    exact ⟨ho, by rw [Program.procOf, hob, hbp]⟩
  · rintro ⟨ho, hop⟩
    exact ⟨_, ⟨hs.blockOf_lt ho, hop⟩, ho, rfl⟩

theorem Agrees.of_put {returns : Table ProcId Bool} {p : ProcId} {v : Bool} {back : ProcId → Prop}
    (h : Agrees (returns.put p v) back) (hnew : returns.get? p = none) : Agrees returns back := by
  intro q w hq
  refine h q w ?_
  rw [Table.get?_put, if_neg, hq]
  rintro rfl
  rw [hnew] at hq
  cases hq

theorem addProc_ok (hs : prog.Shaped) (hmax : prog.ops.size ≤ BitMatrix.maxRows)
    (hmax' : prog.blocks.size ≤ BitMatrix.maxRows) (h : At prog done r) {p : ProcId}
    (hp : p < prog.procs.size) (hfresh : ∀ b ∈ (prog.proc p).blocks, ¬ done b)
    (hcallee : CalleesDone prog r.returns done p) (hnew : r.returns.get? p = none) :
    ∃ r' v, (r.addProc prog p).result = .ok r' ∧ r'.returns = r.returns.put p v ∧
      At prog (fun b => done b ∨ b ∈ (prog.proc p).blocks) r' := by
  obtain ⟨hproc, -, -, helt, hep, hentry⟩ := hs.entry_ok hp
  obtain ⟨hmem, hcs⟩ := blockComponents_ok hs hfresh hcallee
  obtain ⟨r₁, h₁, hret, hat⟩ := addComponents_ok hs hmax hmax' h hcs
  have hat := hat.congr fun b => or_congr_right (hmem b)
  obtain ⟨v, hv, hiff⟩ := hasReturn_ok hat.ops
    (opsOf_firstOp hs helt (.inr ((hs.block_iff p _).mpr ⟨helt, hep⟩)))
    fun o (ho : o ∈ prog.procOps p) => by
      obtain ⟨hlt, hop⟩ := (mem_procOps hs).mp ho
      exact ⟨hlt, .inr ((hs.block_iff p _).mpr ⟨hs.blockOf_lt hlt, hop⟩)⟩
  have hnew₁ : r₁.returns.get? p = none := hret ▸ hnew
  refine ⟨{ r₁ with returns := r₁.returns.put p v }, v, ?_, by rw [hret],
    hat.blocks, fun back hback => hat.ops back (hback.of_put hnew₁), ?_⟩
  · simp only [addProc, Traced.result_bind, Traced.result_log, hproc, hentry, Checked.index_some]
    refine Checked.bind_ok.mpr ⟨_, rfl, Checked.bind_ok.mpr ⟨r₁, h₁, ?_⟩⟩
    exact Checked.bind_ok.mpr ⟨_, rfl, Checked.bind_ok.mpr ⟨v, hv, rfl⟩⟩
  · intro f w hw back hback
    rw [Table.get?_put] at hw
    split at hw
    · next hfp =>
      subst hfp
      cases hw
      rw [hiff back (hback.of_put hnew₁), Returns]
      simp only [mem_procOps hs, hentry, Option.some.injEq, exists_eq_left', and_assoc]
    · exact hat.returns f w hw back (hback.of_put hnew₁)

def blocksOf (prog : Program) (ps : List ProcId) (b : BlockId) : Prop :=
  b < prog.blocks.size ∧ (prog.block b).proc ∈ ps

theorem addProcs_ok (hs : prog.Shaped) (hmax : prog.ops.size ≤ BitMatrix.maxRows)
    (hmax' : prog.blocks.size ≤ BitMatrix.maxRows) (before : List ProcId) {order : List ProcId}
    (h : At prog (blocksOf prog before) r)
    (hreturns : ∀ f, (∃ v, r.returns.get? f = some v) ↔ f ∈ before)
    (hnd : (before ++ order).Nodup) (hlt : ∀ p ∈ order, p < prog.procs.size)
    (hcallee : ∀ before' p after, before ++ order = before' ++ p :: after →
      ∀ q, prog.Calls p q → q < prog.procs.size ∧ q ∈ before') :
    ∃ r', (addProcs prog r order).result = .ok r' ∧ At prog (blocksOf prog (before ++ order)) r' ∧
      ∀ f, (∃ v, r'.returns.get? f = some v) ↔ f ∈ before ++ order := by
  induction order generalizing r before with
  | nil => exact ⟨r, rfl, by simpa using h, by simpa using hreturns⟩
  | cons p order ih =>
    have hassoc : before ++ p :: order = (before ++ [p]) ++ order := by simp
    have hpb : p ∉ before := fun hm => (List.nodup_append.mp hnd).2.2 p hm p List.mem_cons_self rfl
    have hfresh : ∀ b ∈ (prog.proc p).blocks, ¬ blocksOf prog before b := by
      rintro b hb ⟨-, hm⟩
      exact hpb (((hs.block_iff p b).mp hb).2 ▸ hm)
    have hdone : CalleesDone prog r.returns (blocksOf prog before) p := by
      intro q hq
      obtain ⟨hqlt, hqm⟩ := hcallee before p order rfl q hq
      refine ⟨hqlt, fun b hb => ?_, (hreturns q).mpr hqm⟩
      obtain ⟨hblt, hbq⟩ := (hs.block_iff q b).mp hb
      exact ⟨hblt, hbq.symm ▸ hqm⟩
    have hnew : r.returns.get? p = none := by
      cases hg : r.returns.get? p with
      | none => rfl
      | some v => exact absurd ((hreturns p).mp ⟨v, hg⟩) hpb
    obtain ⟨r₁, v, h₁, hret, hat⟩ := addProc_ok hs hmax hmax' h (hlt p List.mem_cons_self) hfresh
      hdone hnew
    have hat₁ : At prog (blocksOf prog (before ++ [p])) r₁ := by
      refine hat.congr fun b => ?_
      rw [blocksOf, blocksOf, hs.block_iff, List.mem_append, List.mem_singleton, and_or_left]
    have hreturns₁ : ∀ f, (∃ w, r₁.returns.get? f = some w) ↔ f ∈ before ++ [p] := by
      intro f
      rw [hret, Table.get?_put, List.mem_append, List.mem_singleton, ← hreturns]
      by_cases hf : f = p <;> simp [hf]
    obtain ⟨r₂, h₂, hat₂⟩ := ih (before ++ [p]) hat₁ hreturns₁ (hassoc ▸ hnd)
      (fun q hq => hlt q (List.mem_cons_of_mem _ hq)) (hassoc ▸ hcallee)
    refine ⟨r₂, ?_, hassoc ▸ hat₂⟩
    rw [addProcs, Traced.result_bind, h₁]
    exact h₂

theorem blocks_le_ops (hs : prog.Shaped) : prog.blocks.size ≤ prog.ops.size := by
  let first : Fin prog.blocks.size → Fin prog.ops.size :=
    fun b => ⟨prog.firstOp b, (firstOp_ok hs b.isLt).1⟩
  have hinj : Function.Injective first := by
    intro a b hab
    have := congrArg (fun o : Fin prog.ops.size => prog.blockOf o) hab
    simp only [first, (firstOp_ok hs a.isLt).2.1, (firstOp_ok hs b.isLt).2.1] at this
    exact Fin.ext this
  have := Fintype.card_le_of_injective first hinj
  rwa [Fintype.card_fin, Fintype.card_fin] at this

/-- The finished graphs of a program without recursion. -/
theorem reachability_ok (hs : prog.Shaped)
    (htargets : ∀ o < prog.ops.size, ∀ f, (prog.kind o).callEdge? = some f → f < prog.procs.size)
    (hacyclic : ∀ p, ¬ Relation.TransGen prog.Calls p p)
    (hsize : prog.ops.size ≤ BitMatrix.maxRows) :
    ∃ order r, prog.calls.postOrder prog = .ok order ∧ (prog.reachability order).result = .ok r ∧
      At prog (blocksOf prog order) r ∧ (∀ b < prog.blocks.size, blocksOf prog order b) ∧
      ∀ f < prog.procs.size, r.mayReturn f = true ↔
        Returns prog (fun f => r.mayReturn f = true) f := by
  obtain ⟨order, horder, hnd, hmem, hbefore⟩ := CallGraph.postOrder_ok htargets hacyclic
  obtain ⟨r, hr, hat, hreturns⟩ := addProcs_ok hs hsize ((blocks_le_ops hs).trans hsize) []
    ((at_empty prog).congr fun b => by simp [blocksOf]) (by simp [Table.get?]) (by simpa using hnd)
    (fun p hp => (hmem p).mp hp) (fun before p after hsplit q hq => by
      rw [List.nil_append] at hsplit
      have hq' := hbefore before p after hsplit q hq
      exact ⟨(hmem q).mp (hsplit.symm ▸ List.mem_append_left _ hq'), hq'⟩)
  refine ⟨order, r, horder, ?_, hat, fun b hb => ⟨hb, (hmem _).mpr (hs.proc_lt b hb)⟩, ?_⟩
  · rw [Program.reachability, Traced.result_bind, hr]
    rfl
  · intro f hf
    obtain ⟨v, hv⟩ := (hreturns f).mpr ((hmem f).mpr hf)
    rw [← hat.returns f v hv _ (agrees_mayReturn r), mayReturn, hv, Option.getD_some]

end YieldPlan.Reachability

namespace YieldPlan

open Reachability in
/-- Reachability of an assembled program without recursion is built, if a bit matrix has room for its
operations, and it is exact. Operations and blocks reach each other as control flows between them,
where control comes back from the procedures that may return, and those are the ones whose entry
leads to a return. -/
theorem reachability_agrees_with_paths {prog : Program} (hbuilt : prog.Built)
    (htargets : ∀ o < prog.ops.size, ∀ f, (prog.kind o).callEdge? = some f → f < prog.procs.size)
    (hacyclic : ∀ p, ¬ Relation.TransGen prog.Calls p p)
    (hsize : prog.ops.size ≤ BitMatrix.maxRows) :
    ∃ g order r, prog.callGraph = .ok g ∧ g.postOrder prog = .ok order ∧
      (prog.reachability order).result = .ok r ∧
      (∀ a < prog.ops.size, ∀ b < prog.ops.size, ∃ ans, r.query prog a b = .ok ans ∧
        (ans = true ↔ Relation.TransGen (prog.Flow fun f => r.mayReturn f = true) a b)) ∧
      (∀ f < prog.procs.size, r.mayReturn f = true ↔
        Returns prog (fun f => r.mayReturn f = true) f) ∧
      ∀ a < prog.blocks.size, ∀ b < prog.blocks.size, ∃ ans, r.queryBlock a b = .ok ans ∧
        (ans = true ↔ Relation.TransGen prog.BlockFlow a b) := by
  have hs := hbuilt.shaped
  obtain ⟨order, r, horder, hr, hat, hblock, hreturns⟩ := reachability_ok hs htargets hacyclic hsize
  refine ⟨prog.calls, order, r, hs.callGraph_ok htargets, horder, hr, ?_, hreturns, ?_⟩
  · intro a ha b hb
    obtain ⟨ans, hans, hiff⟩ := query_ok hat.ops ⟨ha, hblock _ (hs.blockOf_lt ha)⟩
      ⟨hb, hblock _ (hs.blockOf_lt hb)⟩
    exact ⟨ans, hans, hiff _ (agrees_mayReturn r)⟩
  · intro a ha b hb
    exact queryBlock_ok hat.blocks (hblock a ha) (hblock b hb)

/-- How to build a loop that calls a procedure. -/
def BuildStep.loopSteps : List BuildStep :=
  [.proc "main", .proc "work", .block 0 "head", .block 0 "done", .block 1 "entry",
    .op 0 (.call 1), .branch 0 [0, 1], .op 1 (.terminator .ret), .op 2 .local,
    .op 2 (.terminator .ret)]

def Program.callingLoop : Program :=
  ((BuildStep.applyAll {} BuildStep.loopSteps).toOption.getD default).1

theorem Program.built_callingLoop : Program.callingLoop.Built := by
  refine .inl ⟨BuildStep.loopSteps, .callingLoop, [0, 1, 0, 1, 2, 0, 1, 2, 3, 4], ?_, ?_⟩
  · decide +kernel
  · decide +kernel

theorem Program.callingLoop_edges : ∀ o < Program.callingLoop.ops.size, ∀ f,
    (Program.callingLoop.kind o).callEdge? = some f →
      Program.callingLoop.procOf o < f ∧ f < Program.callingLoop.procs.size := by
  have hall : Program.callingLoop.opIds.all fun o =>
      (Program.callingLoop.kind o).callEdge?.all fun f =>
        Program.callingLoop.procOf o < f ∧ f < Program.callingLoop.procs.size := by decide +kernel
  intro o ho f hf
  have := List.all_eq_true.mp hall o (List.mem_range.mpr ho)
  simpa [hf] using this

theorem callingLoop_reaches_itself :
    ∃ g order r, Program.callingLoop.callGraph = .ok g ∧ g.postOrder .callingLoop = .ok order ∧
      (Program.callingLoop.reachability order).result = .ok r ∧
      ∃ ans, r.query .callingLoop 0 0 = .ok ans ∧ (ans = true ↔ Relation.TransGen
        (Program.callingLoop.Flow fun f => r.mayReturn f = true) 0 0) := by
  have hup : ∀ {p q}, Relation.TransGen Program.callingLoop.Calls p q → p < q := by
    intro p q h
    induction h with
    | single h =>
      obtain ⟨o, ho, rfl, hf⟩ := h
      exact (Program.callingLoop_edges o ho _ hf).1
    | tail _ h ih =>
      obtain ⟨o, ho, rfl, hf⟩ := h
      exact Nat.lt_trans ih (Program.callingLoop_edges o ho _ hf).1
  obtain ⟨g, order, r, hg, ho, hr, hq, -⟩ := reachability_agrees_with_paths
    Program.built_callingLoop (fun o ho f hf => (Program.callingLoop_edges o ho f hf).2)
    (fun p h => Nat.lt_irrefl p (hup h)) (by decide +kernel)
  exact ⟨g, order, r, hg, ho, hr, hq 0 (by decide +kernel) 0 (by decide +kernel)⟩

end YieldPlan
