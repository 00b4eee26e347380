import YieldPlan.Proofs.ReachabilityNodes

/-! A block outside loops gets one node for each of its segments, the last one first. A segment runs
from its first operation to its last one without leaving the block. From its last one control enters
a procedure and comes back to the next segment if the procedure returns, or it goes on to the
successors of the block. -/

namespace YieldPlan.Reachability

open YieldPlan.Quotient

variable {prog : Program} {returns : Table ProcId Bool} {done : BlockId → Prop}
  {g₀ g : Quotient} {r : Reachability} {loop : Bool} {ms : List Nat} {ts : List NodeId}

theorem flatten_segments (prog : Program) (os : List OpId) : (segments prog os).flatten = os := by
  induction os with
  | nil => rfl
  | cons o os ih =>
    simp only [segments]
    split
    · simp [ih]
    · next hseg => rw [hseg] at ih; simpa using ih
    · next hseg => rw [hseg] at ih; simpa using ih

/-- Only the last operation of a segment enters a procedure, and it does so unless the segment is
the last one. -/
structure IsSegment (prog : Program) (seg tail : List OpId) : Prop where
  ne_nil : seg ≠ []
  inner : ∀ o ∈ seg.dropLast, (prog.kind o).callEdge? = none
  last : tail ≠ [] → ∃ o f, seg.getLast? = some o ∧ (prog.kind o).callEdge? = some f

theorem segments_isSegment {os : List OpId} (before : List (List OpId)) {seg : List OpId}
    {after : List (List OpId)} (h : segments prog os = before ++ seg :: after) :
    IsSegment prog seg after.flatten := by
  induction os generalizing before seg after with
  | nil => simp [segments] at h
  | cons o os ih =>
    simp only [segments] at h
    split at h
    · next f hf =>
      cases before with
      | nil =>
        obtain ⟨rfl, rfl⟩ := List.cons.inj h
        exact ⟨by simp, by simp, fun _ => ⟨o, f, rfl, hf⟩⟩
      | cons x before => exact ih before (List.cons.inj h).2
    · cases before with
      | nil =>
        obtain ⟨rfl, rfl⟩ := List.cons.inj h
        exact ⟨by simp, by simp, by simp⟩
      | cons x before => simpa using (List.cons.inj h).2
    · next first rest hno hseg =>
      cases before with
      | nil =>
        obtain ⟨rfl, rfl⟩ := List.cons.inj h
        have hfirst := ih [] hseg
        refine ⟨by simp, ?_, fun hne => ?_⟩
        · rw [List.dropLast_cons_of_ne_nil hfirst.ne_nil]
          exact List.forall_mem_cons.mpr ⟨hno, hfirst.inner⟩
        · obtain ⟨x, f, hx, hf⟩ := hfirst.last hne
          exact ⟨x, f, by rw [List.getLast?_cons_of_ne_nil hfirst.ne_nil]; exact hx, hf⟩
      | cons x before =>
        rw [(List.cons.inj h).2] at hseg
        exact ih (first :: before) hseg

/-- A segment of a block outside loops, when the operations after it are done. -/
structure SegmentAt (prog : Program) (returns : Table ProcId Bool) (done : BlockId → Prop)
    (b : BlockId) (before seg tail : List OpId) (cont : Option NodeId) (g₀ : Quotient) : Prop where
  lt : b < prog.blocks.size
  fresh : ¬ done b
  cycle : ¬ prog.OnCycle b
  split : (prog.block b).ops = before ++ seg ++ tail
  cut : IsSegment prog seg tail
  succ : ∀ s, prog.Succ b s → done s
  callee : ∀ o ∈ (prog.block b).ops, ∀ f, (prog.kind o).callEdge? = some f →
    f < prog.procs.size ∧ done (prog.entryBlock f) ∧ ∃ v, returns.get? f = some v
  stage : OpsAt prog returns (fun o => opsOf prog done o ∨ o ∈ tail) g₀
  next : ∀ y, tail.head? = some y → ∃ n, cont = some n ∧ g₀.nodeOf? y = some n ∧
    ∀ back, Agrees returns back → ∀ x, g₀.nodeOf? x = some n →
      Relation.ReflTransGen (prog.Flow back) y x

def segmentLinks (prog : Program) (returns : Table ProcId Bool) (g₀ : Quotient) (b : BlockId)
    (cont : Option NodeId) (seg : List OpId) : List NodeId :=
  match seg.getLast?.bind fun o => (prog.kind o).callEdge? with
  | some f =>
    let spawns := seg.getLast?.any fun o => (prog.kind o).spawn?.isSome
    g₀.homeOf (prog.firstOp (prog.entryBlock f)) ::
      if spawns || (returns.get? f).getD false then cont.toList else []
  | none => (prog.block b).succs.map fun s => g₀.homeOf (prog.firstOp s)

theorem segmentLinks_enter {b : BlockId} {cont : Option NodeId} {seg : List OpId} {z : OpId}
    {f : ProcId} (hz : seg.getLast? = some z) (hf : (prog.kind z).callEdge? = some f) :
    segmentLinks prog returns g₀ b cont seg = g₀.homeOf (prog.firstOp (prog.entryBlock f)) ::
      if (prog.kind z).spawn?.isSome || (returns.get? f).getD false then cont.toList else [] := by
  simp [segmentLinks, hz, hf]

theorem segmentLinks_end {b : BlockId} {cont : Option NodeId} {seg : List OpId} {z : OpId}
    (hz : seg.getLast? = some z) (hf : (prog.kind z).callEdge? = none) :
    segmentLinks prog returns g₀ b cont seg =
      (prog.block b).succs.map fun s => g₀.homeOf (prog.firstOp s) := by
  simp [segmentLinks, hz, hf]

namespace SegmentAt

variable {b : BlockId} {before seg tail : List OpId} {cont : Option NodeId}
  (h : SegmentAt prog returns done b before seg tail cont g₀)

include h

theorem getElem?_ops {i : Nat} (hi : i < seg.length) :
    (prog.block b).ops[before.length + i]? = seg[i]? := by
  rw [h.split, List.append_assoc, List.getElem?_append_right (Nat.le_add_right _ _),
    Nat.add_sub_cancel_left, List.getElem?_append_left hi]

theorem eq_last {x z : OpId} {f : ProcId} (hx : x ∈ seg)
    (hf : (prog.kind x).callEdge? = some f) (hz : seg.getLast? = some z) : x = z := by
  by_contra hne
  have hsplit := List.dropLast_append_getLast? z hz
  have hinner : x ∈ seg.dropLast := by
    rw [← hsplit] at hx
    exact (List.mem_append.mp hx).resolve_right fun hxz => hne (List.mem_singleton.mp hxz)
  rw [h.cut.inner x hinner] at hf
  cases hf

variable (hs : prog.Shaped)

include hs

theorem mem_iff {x : OpId} : x ∈ seg ↔ x < prog.ops.size ∧ prog.blockOf x = b ∧
    before.length ≤ (prog.op x).position ∧ (prog.op x).position < before.length + seg.length := by
  constructor
  · intro hx
    obtain ⟨i, hi⟩ := List.getElem?_of_mem hx
    have hilt := (List.getElem?_eq_some_iff.mp hi).1
    obtain ⟨hlt, hb, hpos⟩ := (hs.op_iff b _ x).mp ((h.getElem?_ops hilt).trans hi)
    exact ⟨hlt, hb, by omega, by omega⟩
  · rintro ⟨hlt, hb, hle, hpos⟩
    obtain ⟨i, hi⟩ := Nat.exists_eq_add_of_le hle
    have hat := (hs.op_iff b _ x).mpr ⟨hlt, hb, hi⟩
    rw [h.getElem?_ops (by omega)] at hat
    exact List.mem_of_getElem? hat

theorem fresh_of_mem {x : OpId} (hx : x ∈ seg) : ¬ (opsOf prog done x ∨ x ∈ tail) := by
  obtain ⟨-, hb, -⟩ := (h.mem_iff hs).mp hx
  rintro (⟨-, hd⟩ | ht)
  · exact h.fresh (hb ▸ hd)
  · have hnd := hs.nodup_ops b
    rw [h.split] at hnd
    exact (List.nodup_append.mp hnd).2.2 x (List.mem_append_right _ hx) x ht rfl

theorem exists_last : ∃ z ∈ seg, seg.getLast? = some z ∧
    (prog.op z).position + 1 = before.length + seg.length := by
  have hpos : 0 < seg.length := List.length_pos_iff.mpr h.cut.ne_nil
  have hlast := List.getLast?_eq_getElem? (l := seg)
  have hat := h.getElem?_ops (Nat.sub_lt hpos Nat.one_pos)
  rw [List.getElem?_eq_getElem (Nat.sub_lt hpos Nat.one_pos)] at hlast hat
  refine ⟨_, List.mem_of_getLast? hlast, hlast, ?_⟩
  have := ((hs.op_iff b _ _).mp hat).2.2
  omega

theorem follows {x y : OpId} (hx : x ∈ seg) (hf : prog.Follows x y) :
    (y ∈ seg ∧ (prog.op x).position < (prog.op y).position) ∨
      (seg.getLast? = some x ∧ tail.head? = some y) := by
  obtain ⟨z, hz, hlast, hzpos⟩ := h.exists_last hs
  obtain ⟨hxlt, hxb, hxle, hxpos⟩ := (h.mem_iff hs).mp hx
  obtain ⟨hylt, hyb, hypos⟩ := hs.follows_iff.mp hf
  by_cases hin : (prog.op y).position < before.length + seg.length
  · exact .inl ⟨(h.mem_iff hs).mpr ⟨hylt, hyb.trans hxb, by omega, hin⟩, by omega⟩
  · obtain ⟨hzlt, hzb, -⟩ := (h.mem_iff hs).mp hz
    have hxz : x = z := hs.op_ext hxlt hzlt (hxb.trans hzb.symm) (by omega)
    have hat := (hs.op_iff b _ y).mpr ⟨hylt, hyb.trans hxb, rfl⟩
    have hlen : (prog.op y).position = (before ++ seg).length := by
      rw [List.length_append]
      omega
    rw [h.split, hlen, List.getElem?_append_right (Nat.le_refl _), Nat.sub_self] at hat
    exact .inr ⟨hxz ▸ hlast, by rw [List.head?_eq_getElem?]; exact hat⟩

theorem flow_forward {back : ProcId → Prop} {x y : OpId} (hx : x ∈ seg) (hy : y ∈ seg)
    (hle : (prog.op x).position ≤ (prog.op y).position) :
    Relation.ReflTransGen (prog.Flow back) x y := by
  obtain ⟨hxlt, hxb, hxle, -⟩ := (h.mem_iff hs).mp hx
  obtain ⟨hylt, hyb, -, hypos⟩ := (h.mem_iff hs).mp hy
  refine hs.flow_forward hxlt hylt (hxb.trans hyb.symm) hle fun w hw hwb hxw hwy f hf => ?_
  obtain ⟨z, hz, hlast, hzpos⟩ := h.exists_last hs
  have hwm : w ∈ seg := (h.mem_iff hs).mpr ⟨hw, hwb.trans hyb, by omega, by omega⟩
  obtain rfl := h.eq_last hwm (Program.callEdge?_of_callee? hf) hlast
  omega

theorem flow_next {back : ProcId → Prop} {z y : OpId} {f : ProcId} (hz : z ∈ seg)
    (hlast : seg.getLast? = some z) (hf : (prog.kind z).callEdge? = some f)
    (hy : tail.head? = some y) (hback : (prog.kind z).spawn?.isSome ∨ back f) :
    prog.Flow back z y := by
  obtain ⟨z', hz', hlast', hzpos⟩ := h.exists_last hs
  obtain rfl : z = z' := Option.some.inj (hlast.symm.trans hlast')
  obtain ⟨hzlt, hzb, -⟩ := (h.mem_iff hs).mp hz
  have hfollows : prog.Follows z y := by
    rw [Program.Follows, Program.opAt?, hzb, h.split, hzpos, ← List.length_append,
      List.getElem?_append_right (Nat.le_refl _), Nat.sub_self, ← List.head?_eq_getElem?]
    exact hy
  refine hs.flow_next hzlt hfollows fun g hg => .inl ?_
  rcases Program.callee?_or_spawn? hf with ⟨hc, hsp⟩ | ⟨hc, -⟩
  · rw [hc] at hg
    cases hg
    rw [hsp] at hback
    exact hback.resolve_left (by simp)
  · rw [hc] at hg
    cases hg

theorem terminator {x : OpId} (hx : x ∈ seg) (hk : (prog.kind x).isTerminator) :
    seg.getLast? = some x ∧ tail = [] := by
  obtain ⟨z, hz, hlast, hzpos⟩ := h.exists_last hs
  obtain ⟨hxlt, hxb, hxle, hxpos⟩ := (h.mem_iff hs).mp hx
  have hend : ¬ (prog.op x).position + 1 < (prog.block b).ops.length := by
    intro hlt
    have hf : prog.Follows x (prog.block b).ops[(prog.op x).position + 1] := by
      rw [Program.Follows, Program.opAt?, hxb]
      exact List.getElem?_eq_getElem hlt
    exact hs.not_isTerminator hxlt hf hk
  have hlen := congrArg List.length h.split
  simp only [List.length_append] at hlen
  obtain ⟨hzlt, hzb, -⟩ := (h.mem_iff hs).mp hz
  have hxz : x = z := hs.op_ext hxlt hzlt (hxb.trans hzb.symm) (by omega)
  exact ⟨hxz ▸ hlast, List.eq_nil_of_length_eq_zero (by omega)⟩

theorem tail_ne_nil {z : OpId} {f : ProcId} (hlast : seg.getLast? = some z)
    (hf : (prog.kind z).callEdge? = some f) : ∃ y, tail.head? = some y := by
  cases htail : tail with
  | cons y ys => exact ⟨y, rfl⟩
  | nil =>
    obtain ⟨o, ho, hk⟩ := hs.last b h.lt
    rw [h.split, htail, List.append_nil, List.getLast?_append_of_ne_nil _ h.cut.ne_nil, hlast] at ho
    cases ho
    have : (prog.kind z).isTerminator := by rcases hk with hk | hk <;> rw [hk.1] <;> rfl
    exact absurd this (Program.not_isTerminator_of_callEdge? hf)

theorem terminator_of_end {z : OpId} (hlast : seg.getLast? = some z)
    (hf : (prog.kind z).callEdge? = none) :
    (prog.kind z = .terminator .branch ∧ (prog.block b).succs ≠ []) ∨
      (prog.kind z = .terminator .ret ∧ (prog.block b).succs = []) := by
  have htail : tail = [] := by
    by_contra hne
    obtain ⟨o, f, ho, hof⟩ := h.cut.last hne
    rw [hlast] at ho
    cases ho
    rw [hf] at hof
    cases hof
  obtain ⟨o, ho, hk⟩ := hs.last b h.lt
  rw [h.split, htail, List.append_nil, List.getLast?_append_of_ne_nil _ h.cut.ne_nil, hlast] at ho
  cases ho
  exact hk

theorem home_first {s : BlockId} (hlt : s < prog.blocks.size) (hd : done s) :
    g₀.nodeOf? (prog.firstOp s) = some (g₀.homeOf (prog.firstOp s)) :=
  h.stage.home (.inl (opsOf_firstOp hs hlt hd))

/-- A step from the segment goes forward in it or over one of its links. -/
theorem step {back : ProcId → Prop} (hback : Agrees returns back) {x y : OpId} (hx : x ∈ seg)
    (hxy : prog.Flow back x y) :
    (y ∈ seg ∧ (prog.op x).position < (prog.op y).position) ∨
      ∃ t ∈ segmentLinks prog returns g₀ b cont seg, g₀.nodeOf? y = some t := by
  obtain ⟨hxlt, hxb, -, -⟩ := (h.mem_iff hs).mp hx
  have hxops : x ∈ (prog.block b).ops := hs.mem_ops.mpr ⟨hxlt, hxb⟩
  obtain ⟨z, hz, hlast, -⟩ := h.exists_last hs
  have hcont : ∀ f, (prog.kind x).callEdge? = some f →
      ((prog.kind x).spawn?.isSome || (returns.get? f).getD false) = true →
      tail.head? = some y → ∃ t ∈ segmentLinks prog returns g₀ b cont seg, g₀.nodeOf? y = some t := by
    intro f hf hret hy
    obtain rfl := h.eq_last hx hf hlast
    obtain ⟨n, hn, hny, -⟩ := h.next y hy
    exact ⟨n, by rw [segmentLinks_enter hlast hf, if_pos hret, hn]; simp, hny⟩
  cases hxy with
  | next _ hc hf =>
    rcases h.follows hs hx hf with hin | ⟨hxz, hy⟩
    · exact .inl hin
    · obtain ⟨o, f, ho, hof⟩ := h.cut.last (by rintro rfl; cases hy)
      rw [hxz] at ho
      cases ho
      rcases Program.callee?_or_spawn? hof with ⟨hcall, -⟩ | ⟨-, hspawn⟩
      · rw [hc] at hcall
        cases hcall
      · exact .inr (hcont f hof (by simp [hspawn]) hy)
  | @resume _ f hc hret hf =>
    rcases h.follows hs hx hf with hin | ⟨-, hy⟩
    · exact .inl hin
    · have hof := Program.callEdge?_of_callee? hc
      obtain ⟨-, -, v, hv⟩ := h.callee x hxops f hof
      have hv' : v = true := (hback f v hv).mp (hret.resolve_right (hxb ▸ h.cycle))
      exact .inr (hcont f hof (by simp [hv, hv']) hy)
  | @enter _ f hf hentry =>
    obtain rfl := h.eq_last hx hf hlast
    obtain ⟨hflt, hd, -⟩ := h.callee x hxops f hf
    obtain ⟨-, -, -, helt, -, hop⟩ := hs.entry_ok hflt
    rw [hop] at hentry
    cases hentry
    refine .inr ⟨_, ?_, h.home_first hs helt hd⟩
    rw [segmentLinks_enter hlast hf]
    exact List.mem_cons_self
  | @branch s _ hk hsucc hfirst =>
    rw [hxb] at hsucc
    have hslt := (hs.succ b h.lt s hsucc).1
    rw [hs.opAt?_firstOp hslt] at hfirst
    cases hfirst
    refine .inr ⟨_, ?_, h.home_first hs hslt (h.succ s hsucc)⟩
    rw [segmentLinks_end (h.terminator hs hx (by rw [hk]; rfl)).1 (by rw [hk]; rfl)]
    exact List.mem_map_of_mem hsucc

theorem inner {back : ProcId → Prop} (hback : Agrees returns back) {x y : OpId} (hx : x ∈ seg)
    (hy : y ∈ seg) :
    (prog.op x).position < (prog.op y).position ↔ Relation.TransGen (prog.Flow back) x y := by
  constructor
  · intro hlt
    refine (Relation.reflTransGen_iff_eq_or_transGen.mp
      (h.flow_forward hs hx hy (Nat.le_of_lt hlt))).resolve_left ?_
    rintro rfl
    exact Nat.lt_irrefl _ hlt
  · intro hxy
    have hstage := h.stage back hback
    have hpath : (y ∈ seg ∧ (prog.op x).position < (prog.op y).position) ∨
        ∃ n, g₀.nodeOf? y = some n := by
      clear hy
      induction hxy with
      | single hs' =>
        rcases h.step hs hback hx hs' with hin | ⟨t, -, ht⟩
        · exact .inl hin
        · exact .inr ⟨t, ht⟩
      | tail _ hs' ih =>
        rcases ih with ⟨hin, hlt⟩ | ⟨n, hn⟩
        · rcases h.step hs hback hin hs' with ⟨hin', hlt'⟩ | ⟨t, -, ht⟩
          · exact .inl ⟨hin', Nat.lt_trans hlt hlt'⟩
          · exact .inr ⟨t, ht⟩
        · exact .inr (hstage.exact.closed hn hs')
    rcases hpath with hin | hn
    · exact hin.2
    · exact absurd ((hstage.home y).mp hn) (h.fresh_of_mem hs hy)

theorem leaves {back : ProcId → Prop} (hback : Agrees returns back) :
    Leaves g₀ (prog.Flow back) seg (segmentLinks prog returns g₀ b cont seg) where
  out x hx y hxy := (h.step hs hback hx hxy).imp_left And.left
  link t ht := by
    obtain ⟨z, hz, hlast, hzpos⟩ := h.exists_last hs
    obtain ⟨hzlt, hzb, -, -⟩ := (h.mem_iff hs).mp hz
    have hreach : ∀ x ∈ seg, Relation.ReflTransGen (prog.Flow back) x z := by
      intro x hx
      obtain ⟨-, -, -, hxpos⟩ := (h.mem_iff hs).mp hx
      exact h.flow_forward hs hx hz (by omega)
    have hfirst : ∀ s, s < prog.blocks.size → done s → prog.Flow back z (prog.firstOp s) →
        g₀.homeOf (prog.firstOp s) = t → ∃ x ∈ seg, ∃ y, prog.Flow back x y ∧
          g₀.nodeOf? y = some t ∧ (∀ a ∈ seg, Relation.ReflTransGen (prog.Flow back) a x) ∧
          ∀ c, g₀.nodeOf? c = some t → Relation.ReflTransGen (prog.Flow back) y c := by
      rintro s hslt hd hstep rfl
      refine ⟨z, hz, _, hstep, h.home_first hs hslt hd, hreach, fun c hc => ?_⟩
      exact h.stage.enters hs hback (.inl (opsOf_firstOp hs hslt hd)) (firstOp_ok hs hslt).2.2 hc
    cases hf : (prog.kind z).callEdge? with
    | some f =>
      obtain ⟨hflt, hd, v, hv⟩ := h.callee z (hs.mem_ops.mpr ⟨hzlt, hzb⟩) f hf
      obtain ⟨-, -, -, helt, -, hop⟩ := hs.entry_ok hflt
      rw [segmentLinks_enter hlast hf] at ht
      rcases List.mem_cons.mp ht with rfl | ht
      · exact hfirst _ helt hd (.enter hf hop) rfl
      · split at ht
        · next hret =>
          obtain ⟨y, hy⟩ := h.tail_ne_nil hs hlast hf
          obtain ⟨n, hn, hny, hall⟩ := h.next y hy
          have htn : t = n := by simpa [hn] using ht
          have hret' : (prog.kind z).spawn?.isSome ∨ back f := by
            rw [hv, Option.getD_some, Bool.or_eq_true] at hret
            exact hret.imp_right (hback f v hv).mpr
          exact ⟨z, hz, y, h.flow_next hs hz hlast hf hy hret', htn ▸ hny, hreach,
            fun c hc => hall back hback c (htn ▸ hc)⟩
        · cases ht
    | none =>
      rw [segmentLinks_end hlast hf] at ht
      obtain ⟨s, hsucc, rfl⟩ := List.mem_map.mp ht
      have hslt := (hs.succ b h.lt s hsucc).1
      have hk : prog.kind z = .terminator .branch := by
        rcases h.terminator_of_end hs hlast hf with hk | hk
        · exact hk.1
        · rw [hk.2] at hsucc
          cases hsucc
      exact hfirst s hslt (h.succ s hsucc)
        (.branch hk (hzb.symm ▸ hsucc) (hs.opAt?_firstOp hslt)) rfl

theorem targets_ok (hr : r.returns = returns) (hg : Grown g₀ loop false seg ts r.ops)
    (hblk : ∀ c, done c → ∃ n, r.blocks.nodeOf? c = some n) :
    r.segmentTargets prog b cont seg = (segmentLinks prog returns g₀ b cont seg).map .ok := by
  subst hr
  obtain ⟨z, hz, hlast, -⟩ := h.exists_last hs
  obtain ⟨hzlt, hzb, -, -⟩ := (h.mem_iff hs).mp hz
  have hnew : ∀ x ∈ seg, ¬ (opsOf prog done x ∨ x ∈ tail) := fun x hx => h.fresh_of_mem hs hx
  cases hf : (prog.kind z).callEdge? with
  | some f =>
    obtain ⟨hflt, hd, -⟩ := h.callee z (hs.mem_ops.mpr ⟨hzlt, hzb⟩) f hf
    have helt := (hs.entry_ok hflt).2.2.2.1
    rw [segmentLinks_enter hlast hf, List.map_cons]
    simp only [segmentTargets, hlast, Option.bind_some, hf, Option.any_some]
    rw [entryOpNode_ok hs h.stage hg hnew hflt (.inl (opsOf_firstOp hs helt hd)) (hblk _ hd)]
    rfl
  | none =>
    rw [segmentLinks_end hlast hf, List.map_map]
    simp only [segmentTargets, hlast, Option.bind_some, hf]
    refine List.map_congr_left fun s hsucc => ?_
    have hslt := (hs.succ b h.lt s hsucc).1
    exact firstNode_ok hs h.stage hg hnew hslt (.inl (opsOf_firstOp hs hslt (h.succ s hsucc)))

theorem links_lt {t : NodeId} (ht : t ∈ segmentLinks prog returns g₀ b cont seg) :
    t < g₀.nodes.size := by
  obtain ⟨-, -, y, -, hy, -⟩ := (h.leaves hs (agrees_table returns)).link t ht
  exact h.stage.ready.home_lt hy

theorem nodup : seg.Nodup := by
  have hnd := hs.nodup_ops b
  rw [h.split] at hnd
  exact (List.nodup_append.mp (List.nodup_append.mp hnd).1).2.1

theorem grow (hg : Grown g₀ false true seg (segmentLinks prog returns g₀ b cont seg) g) :
    OpsAt prog returns (fun o => opsOf prog done o ∨ o ∈ seg ++ tail) g ∧
      ∀ y, (seg ++ tail).head? = some y → ∃ n, some g₀.nodes.size = some n ∧
        g.nodeOf? y = some n ∧ ∀ back, Agrees returns back → ∀ x, g.nodeOf? x = some n →
          Relation.ReflTransGen (prog.Flow back) y x := by
  refine ⟨fun back hback => ?_, fun y hy => ?_⟩
  · refine Stage.congr (Stage.grow (h.stage back hback) hg h.cut.ne_nil
      (fun x hx => ((h.mem_iff hs).mp hx).1) (fun x hx => h.fresh_of_mem hs hx) ?_ ?_
      (h.leaves hs hback)) fun x => ?_
    · intro x hx y hy
      exact .inr (((h.mem_iff hs).mp hx).2.1.trans ((h.mem_iff hs).mp hy).2.1.symm)
    · intro x hx y hy
      rw [← h.inner hs hback hx hy]
      exact or_iff_right (by simp)
    · rw [List.mem_append, or_assoc, or_comm (a := x ∈ tail)]
  · have hym : seg[0]? = some y := by
      rw [← List.head?_eq_getElem?, ← hy, List.head?_append_of_ne_nil _ h.cut.ne_nil]
    have hyseg := List.mem_of_getElem? hym
    refine ⟨_, rfl, (hg.home_new h.stage.ready).mpr hyseg, fun back _ x hx => ?_⟩
    have hxseg := (hg.home_new h.stage.ready).mp hx
    obtain ⟨-, -, hxle, -⟩ := (h.mem_iff hs).mp hxseg
    have hypos := ((hs.op_iff b _ y).mp ((h.getElem?_ops
      (List.length_pos_iff.mpr h.cut.ne_nil)).trans hym)).2.2
    exact h.flow_forward hs hyseg hxseg (by omega)

end SegmentAt

theorem addSegments_ok (hs : prog.Shaped) (hmax : prog.ops.size ≤ BitMatrix.maxRows)
    {b : BlockId} (hc : Component prog r.returns done [b]) (hcycle : ¬ prog.OnCycle b)
    (hblk : ∀ c, done c → ∃ n, r.blocks.nodeOf? c = some n) (parent : NodeId)
    (after : List (List OpId)) {rest : List (List OpId)} {cont : Option NodeId}
    (hsegs : segments prog (prog.block b).ops = rest.reverse ++ after)
    (hstage : OpsAt prog r.returns (fun o => opsOf prog done o ∨ o ∈ after.flatten) r.ops)
    (hnext : ∀ y, after.flatten.head? = some y → ∃ n, cont = some n ∧ r.ops.nodeOf? y = some n ∧
      ∀ back, Agrees r.returns back → ∀ x, r.ops.nodeOf? x = some n →
        Relation.ReflTransGen (prog.Flow back) y x) :
    ∃ g, addSegments prog b parent r cont rest = .ok { r with ops := g } ∧
      OpsAt prog r.returns (opsOf prog fun c => done c ∨ c ∈ [b]) g := by
  have hb := List.mem_singleton.mpr (rfl : b = b)
  induction rest generalizing r after cont with
  | nil =>
    refine ⟨r.ops, rfl, fun back hback => (hstage back hback).congr fun o => ?_⟩
    have hflat := flatten_segments prog (prog.block b).ops
    rw [hsegs, List.reverse_nil, List.nil_append] at hflat
    rw [hflat, hs.mem_ops, opsOf, opsOf, List.mem_singleton, and_or_left]
  | cons seg rest ih =>
    rw [List.reverse_cons, List.append_assoc, List.singleton_append] at hsegs
    have hseg : SegmentAt prog r.returns done b rest.reverse.flatten seg after.flatten cont r.ops :=
      { lt := hc.lt b hb
        fresh := hc.fresh b hb
        cycle := hcycle
        split := by
          have hflat := flatten_segments prog (prog.block b).ops
          rw [hsegs] at hflat
          simpa using hflat.symm
        cut := segments_isSegment _ hsegs
        succ := fun s hsucc => (hc.succ b hb s hsucc).resolve_left fun hm =>
          hcycle (.single (List.mem_singleton.mp hm ▸ hsucc))
        callee := hc.callee b hb
        stage := hstage
        next := hnext }
    obtain ⟨x, hx⟩ := List.exists_mem_of_ne_nil _ hseg.cut.ne_nil
    have hfresh : ∀ x ∈ seg, r.ops.nodeOf? x = none :=
      fun x hx => hstage.fresh (hseg.fresh_of_mem hs hx)
    obtain ⟨g₁, h₁, hg₁⟩ := create_ok hstage.ready false ((hseg.mem_iff hs).mp hx).1 (hfresh x hx) hmax
    obtain ⟨g₂, h₂, hg₂⟩ := hg₁.setParent parent
    obtain ⟨g₃, h₃, hg₃⟩ := addMembers_ok hg₂ opLabel (by simpa using hseg.nodup hs) hfresh
    rw [List.nil_append] at hg₃
    have htargets := hseg.targets_ok (r := { r with ops := g₃ }) hs rfl hg₃ hblk
    obtain ⟨g₄, h₄, hg₄⟩ := linkAll_ok hg₃ hstage.ready _ fun t ht => hseg.links_lt hs ht
    rw [List.nil_append] at hg₄
    obtain ⟨g₅, h₅, hg₅⟩ := hg₄.lock
    obtain ⟨hstage', hnext'⟩ := hseg.grow hs hg₅
    obtain ⟨g₆, h₆, hg₆⟩ := ih (r := { r with ops := g₅ }) hc hblk (seg :: after) hsegs hstage' hnext'
    refine ⟨g₆, ?_, hg₆⟩
    simp only [addSegments, h₁, h₂, h₃, htargets, h₄, h₅, h₆, Checked.ok_bind]

theorem addOps_ok (hs : prog.Shaped) (hmax : prog.ops.size ≤ BitMatrix.maxRows)
    {members : List BlockId} (hc : Component prog r.returns done members)
    (hblk : ∀ c, done c → ∃ n, r.blocks.nodeOf? c = some n)
    (hstage : OpsAt prog r.returns (opsOf prog done) r.ops) (parent : NodeId) :
    ∃ g, r.addOps prog members parent = .ok { r with ops := g } ∧
      OpsAt prog r.returns (opsOf prog fun c => done c ∨ c ∈ members) g := by
  rw [addOps]
  cases hloop : isLoop prog members with
  | true => exact addLoop_ok hs hmax hc hloop hblk hstage parent
  | false =>
    obtain ⟨b, rfl, hcycle⟩ := hc.single hloop
    refine addSegments_ok hs hmax hc hcycle hblk parent [] (by simp) ?_ (by simp)
    exact fun back hback => (hstage back hback).congr fun o => by simp

end YieldPlan.Reachability
