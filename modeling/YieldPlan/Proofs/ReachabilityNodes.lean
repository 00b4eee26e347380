import YieldPlan.Reachability
import YieldPlan.Proofs.ControlFlow
import YieldPlan.Proofs.QuotientClosure

/-! A component whose successors and callees are done gets one node in the graph of blocks, and if
it is a loop one node in the graph of operations. Both nodes keep their graphs exact. -/

namespace YieldPlan

def Program.firstOp (prog : Program) (b : BlockId) : OpId := (prog.opAt? b 0).getD 0

theorem Program.Shaped.opAt?_firstOp {prog : Program} (h : prog.Shaped) {b : BlockId}
    (hb : b < prog.blocks.size) : prog.opAt? b 0 = some (prog.firstOp b) := by
  obtain ⟨o, ho⟩ := h.exists_first hb
  rw [firstOp, ho, Option.getD_some]

theorem Program.Shaped.entry_ok {prog : Program} (h : prog.Shaped) {f : ProcId}
    (hf : f < prog.procs.size) :
    prog.proc? f = some (prog.proc f) ∧ (prog.proc f).entry = some (prog.entryBlock f) ∧
      prog.entryBlock? f = some (prog.entryBlock f) ∧ prog.entryBlock f < prog.blocks.size ∧
      (prog.block (prog.entryBlock f)).proc = f ∧
      prog.entryOp? f = some (prog.firstOp (prog.entryBlock f)) := by
  have hproc : prog.proc? f = some (prog.proc f) := by simp [proc, proc?, hf]
  obtain ⟨c, hc⟩ := h.entry_some f hf
  have hentry : prog.entryBlock f = c := by rw [entryBlock, hc, Option.getD_some]
  have hpc : (prog.proc f).entry = some c := by
    rwa [entryBlock?, hproc, Option.bind_some] at hc
  obtain ⟨hlt, hcf⟩ := (h.block_iff f c).mp (List.mem_of_mem_head? (h.entry f ▸ hpc))
  rw [hentry]
  refine ⟨hproc, hpc, hc, hlt, hcf, ?_⟩
  rw [entryOp?, hc, Option.bind_some]
  exact h.opAt?_firstOp hlt

def Quotient.homeOf (g : Quotient) (e : Nat) : NodeId := (g.nodeOf? e).getD 0

namespace Reachability

open YieldPlan.Quotient

section Links

variable {g₀ g : Quotient} {bound : Nat} {loop : Bool} {ms : List Nat} {ts : List NodeId}

theorem addMembers_ok (h : Grown g₀ loop false ms ts g) (label : Nat → String) {es : List Nat}
    (hnd : (ms ++ es).Nodup) (hnew : ∀ e ∈ es, g₀.nodeOf? e = none) :
    ∃ g', addMembers label g g₀.nodes.size es = .ok g' ∧
      Grown g₀ loop false (ms ++ es) ts g' := by
  induction es generalizing ms g with
  | nil => exact ⟨g, rfl, by simpa using h⟩
  | cons e es ih =>
    have hassoc : ms ++ e :: es = (ms ++ [e]) ++ es := by simp
    have he : e ∉ ms := fun hm => (List.nodup_append.mp hnd).2.2 e hm e List.mem_cons_self rfl
    obtain ⟨g₁, h₁, hg₁⟩ := h.addMember label he (hnew e List.mem_cons_self)
    obtain ⟨g₂, h₂, hg₂⟩ := ih hg₁ (hassoc ▸ hnd) fun x hx => hnew x (List.mem_cons_of_mem _ hx)
    refine ⟨g₂, ?_, hassoc ▸ hg₂⟩
    simp only [addMembers, h₁]
    exact h₂

theorem linkAll_ok (h : Grown g₀ loop false ms ts g) (hr : g₀.Ready bound) (us : List NodeId)
    (hus : ∀ t ∈ us, t < g₀.nodes.size) :
    ∃ g', linkAll g g₀.nodes.size (us.map .ok) = .ok g' ∧
      Grown g₀ loop false ms (ts ++ us) g' := by
  induction us generalizing ts g with
  | nil => exact ⟨g, rfl, by simpa using h⟩
  | cons t us ih =>
    obtain ⟨g₁, h₁, hg₁⟩ := h.link hr (hus t List.mem_cons_self)
    obtain ⟨g₂, h₂, hg₂⟩ := ih hg₁ fun x hx => hus x (List.mem_cons_of_mem _ hx)
    refine ⟨g₂, ?_, by simpa using hg₂⟩
    simp only [List.map_cons, linkAll, Checked.ok_bind, h₁, h₂]

end Links

def Agrees (returns : Table ProcId Bool) (back : ProcId → Prop) : Prop :=
  ∀ p v, returns.get? p = some v → (back p ↔ v = true)

theorem agrees_mayReturn (r : Reachability) : Agrees r.returns fun p => r.mayReturn p = true := by
  intro p v hv
  simp only [mayReturn, hv, Option.getD_some]

def BlocksAt (prog : Program) (done : BlockId → Prop) (g : Quotient) : Prop :=
  g.Stage prog.blocks.size prog.BlockFlow (fun _ _ => False) Eq done

/-- The operations done are answered for as control flows, whatever the other procedures do. -/
def OpsAt (prog : Program) (returns : Table ProcId Bool) (done : OpId → Prop) (g : Quotient) :
    Prop :=
  ∀ back, Agrees returns back → g.Stage prog.ops.size (prog.Flow back)
    (fun a b => (prog.op a).position < (prog.op b).position)
    (fun a b => prog.blockOf a = prog.blockOf b) done

/-- A component of blocks whose successors and callees are done. -/
structure Component (prog : Program) (returns : Table ProcId Bool) (done : BlockId → Prop)
    (members : List BlockId) : Prop where
  ne_nil : members ≠ []
  nodup : members.Nodup
  lt : ∀ b ∈ members, b < prog.blocks.size
  fresh : ∀ b ∈ members, ¬ done b
  strong : ∀ b ∈ members, ∀ c, c ∈ members ↔
    Relation.ReflTransGen prog.Succ b c ∧ Relation.ReflTransGen prog.Succ c b
  succ : ∀ b ∈ members, ∀ s, prog.Succ b s → s ∈ members ∨ done s
  callee : ∀ b ∈ members, ∀ o ∈ (prog.block b).ops, ∀ f, (prog.kind o).callEdge? = some f →
    f < prog.procs.size ∧ done (prog.entryBlock f) ∧ ∃ v, returns.get? f = some v

section

variable {prog : Program} {returns : Table ProcId Bool} {done : BlockId → Prop}
  {members : List BlockId} {g₀ g : Quotient} {r : Reachability} {loop : Bool} {ms : List Nat}
  {ts : List NodeId}

theorem Component.cycle (h : Component prog returns done members)
    (hloop : isLoop prog members = true) {b c : BlockId} (hb : b ∈ members) (hc : c ∈ members) :
    Relation.TransGen prog.Succ b c := by
  have hne : ∀ {x y}, x ∈ members → y ∈ members → x ≠ y → Relation.TransGen prog.Succ x y := by
    intro x y hx hy hxy
    have := ((h.strong x hx y).mp hy).1
    exact (Relation.reflTransGen_iff_eq_or_transGen.mp this).resolve_left hxy.symm
  by_cases hbc : b = c
  · subst hbc
    by_cases hother : ∃ x ∈ members, x ≠ b
    · obtain ⟨x, hx, hxb⟩ := hother
      exact (hne hb hx hxb.symm).trans (hne hx hb hxb)
    · simp only [not_exists, not_and, not_not] at hother
      have hone : members = [b] := by
        cases hm : members with
        | nil => exact absurd hm h.ne_nil
        | cons x xs =>
          have hnd := h.nodup
          rw [hm] at hnd hother
          obtain rfl := hother x List.mem_cons_self
          cases xs with
          | nil => rfl
          | cons y ys =>
            have hy := hother y (List.mem_cons_of_mem _ List.mem_cons_self)
            exact absurd (hy ▸ List.mem_cons_self) (List.nodup_cons.mp hnd).1
      rw [hone] at hloop
      exact .single (List.contains_iff_mem.mp hloop)
  · exact hne hb hc hbc

theorem Component.single (h : Component prog returns done members)
    (hloop : isLoop prog members = false) : ∃ b, members = [b] ∧ ¬ prog.OnCycle b := by
  cases hm : members with
  | nil => exact absurd hm h.ne_nil
  | cons b bs =>
    cases bs with
    | cons c cs => rw [hm] at hloop; cases hloop
    | nil =>
      refine ⟨b, rfl, fun hcycle => ?_⟩
      rw [hm] at hloop
      obtain ⟨s, hbs, hsb⟩ := Relation.TransGen.head'_iff.mp hcycle
      have hs : s ∈ members := (h.strong b (by simp [hm]) s).mpr ⟨.single hbs, hsb⟩
      rw [hm, List.mem_singleton] at hs
      rw [hs] at hbs
      have : isLoop prog [b] = true := List.contains_iff_mem.mpr hbs
      rw [hloop] at this
      cases this

theorem Component.reaches (h : Component prog returns done members) {b c : BlockId}
    (hb : b ∈ members) (hc : c ∈ members) : Relation.ReflTransGen prog.BlockFlow b c :=
  Relation.ReflTransGen.mono (fun _ _ => .succ) _ _ ((h.strong b hb c).mp hc).1

theorem BlocksAt.home (h : BlocksAt prog done g₀) {b : BlockId} (hb : done b) :
    g₀.nodeOf? b = some (g₀.homeOf b) := by
  obtain ⟨n, hn⟩ := (Stage.home h b).mpr hb
  rw [homeOf, hn, Option.getD_some]

theorem BlocksAt.home_lt (h : BlocksAt prog done g₀) {b : BlockId} (hb : done b) :
    g₀.homeOf b < g₀.nodes.size := (Stage.ready h).home_lt (h.home hb)

theorem entryNodes_ok (hs : prog.Shaped) {f : ProcId} (hf : f < prog.procs.size) {n m : NodeId}
    (hb : r.blocks.nodeOf? (prog.entryBlock f) = some n)
    (ho : r.ops.nodeOf? (prog.firstOp (prog.entryBlock f)) = some m) :
    r.entryNodes prog f = .ok (n, m) := by
  obtain ⟨hproc, hentry, -, -, -, hop⟩ := hs.entry_ok hf
  refine Checked.bind_ok.mpr ⟨prog.proc f, Checked.index_ok.mpr hproc, ?_⟩
  rw [hentry, hop, Option.bind_some, Option.bind_some, hb, ho]
  rfl

theorem mem_entered {os : List OpId} {f : ProcId} :
    f ∈ entered prog os ↔ ∃ o ∈ os, (prog.kind o).callEdge? = some f := List.mem_filterMap

def blockLinks (prog : Program) (g₀ : Quotient) (inside : List BlockId) (b : BlockId) :
    List NodeId :=
  ((prog.block b).succs.filter fun s => !inside.contains s).map g₀.homeOf ++
    (entered prog (prog.block b).ops).map fun f => g₀.homeOf (prog.entryBlock f)

theorem linkBlock_ok (hs : prog.Shaped) (hc : Component prog returns done members)
    (hstage : BlocksAt prog done g₀) (hg : Grown g₀ loop false ms ts r.blocks)
    (hms : ∀ e ∈ ms, ¬ done e) (hops : ∀ b, done b → ∃ n, r.ops.nodeOf? (prog.firstOp b) = some n)
    {b : BlockId} (hb : b ∈ members) :
    ∃ g', r.linkBlock prog members g₀.nodes.size b = .ok { r with blocks := g' } ∧
      Grown g₀ loop false ms (ts ++ blockLinks prog g₀ members b) g' := by
  have hhome : ∀ c, done c → r.blocks.nodeOf? c = some (g₀.homeOf c) := by
    intro c hdc
    rw [hg.home, if_neg fun hm => hms c hm hdc]
    exact hstage.home hdc
  have hblock : prog.block? b = some (prog.block b) := by
    have := hc.lt b hb
    simp [Program.block, Program.block?, this]
  have hout : ∀ s ∈ (prog.block b).succs.filter fun s => !members.contains s, done s := by
    intro s hsm
    obtain ⟨hsucc, hnot⟩ := List.mem_filter.mp hsm
    refine (hc.succ b hb s hsucc).resolve_left fun hm => ?_
    simp [hm] at hnot
  have hcallee : ∀ f ∈ entered prog (prog.block b).ops,
      f < prog.procs.size ∧ done (prog.entryBlock f) := by
    intro f hf
    obtain ⟨o, ho, hof⟩ := mem_entered.mp hf
    obtain ⟨hlt, hd, -⟩ := hc.callee b hb o ho f hof
    exact ⟨hlt, hd⟩
  have hsuccs : ((prog.block b).succs.filter fun s => !members.contains s).map r.successorNode =
      (((prog.block b).succs.filter fun s => !members.contains s).map g₀.homeOf).map .ok := by
    rw [List.map_map]
    refine List.map_congr_left fun s hsm => ?_
    rw [successorNode, hhome s (hout s hsm)]
    rfl
  have hcallees : (entered prog (prog.block b).ops).map (r.entryBlockNode prog) =
      ((entered prog (prog.block b).ops).map fun f => g₀.homeOf (prog.entryBlock f)).map .ok := by
    rw [List.map_map]
    refine List.map_congr_left fun f hf => ?_
    obtain ⟨hlt, hd⟩ := hcallee f hf
    obtain ⟨n, hn⟩ := hops _ hd
    rw [entryBlockNode, entryNodes_ok hs hlt (hhome _ hd) hn]
    rfl
  obtain ⟨g₁, h₁, hg₁⟩ := linkAll_ok hg (Stage.ready hstage) _
    (List.forall_mem_map.mpr fun s hsm => hstage.home_lt (hout s hsm))
  obtain ⟨g₂, h₂, hg₂⟩ := linkAll_ok hg₁ (Stage.ready hstage) _
    (List.forall_mem_map.mpr fun f hf => hstage.home_lt (hcallee f hf).2)
  refine ⟨g₂, ?_, by rwa [blockLinks, ← List.append_assoc]⟩
  simp only [linkBlock, hblock, Checked.index_some, Checked.ok_bind, hsuccs, h₁, hcallees, h₂]
  rfl

theorem linkBlocks_ok (hs : prog.Shaped) (hc : Component prog returns done members)
    (hstage : BlocksAt prog done g₀) (hg : Grown g₀ loop false ms ts r.blocks)
    (hms : ∀ e ∈ ms, ¬ done e) (hops : ∀ b, done b → ∃ n, r.ops.nodeOf? (prog.firstOp b) = some n)
    {bs : List BlockId} (hbs : ∀ b ∈ bs, b ∈ members) :
    ∃ g', linkBlocks prog members g₀.nodes.size r bs = .ok { r with blocks := g' } ∧
      Grown g₀ loop false ms (ts ++ bs.flatMap (blockLinks prog g₀ members)) g' := by
  induction bs generalizing r ts with
  | nil => exact ⟨r.blocks, rfl, by simpa using hg⟩
  | cons b bs ih =>
    obtain ⟨g₁, h₁, hg₁⟩ := linkBlock_ok hs hc hstage hg hms hops (hbs b List.mem_cons_self)
    obtain ⟨g₂, h₂, hg₂⟩ := ih (r := { r with blocks := g₁ }) hg₁ hops
      fun x hx => hbs x (List.mem_cons_of_mem _ hx)
    refine ⟨g₂, ?_, by rwa [List.flatMap_cons, ← List.append_assoc]⟩
    rw [linkBlocks, h₁]
    exact h₂

theorem blockLinks_leaves (hs : prog.Shaped) (hc : Component prog returns done members)
    (hstage : BlocksAt prog done g₀) :
    Leaves g₀ prog.BlockFlow members (members.flatMap (blockLinks prog g₀ members)) where
  out b hb c hbc := by
    rw [or_iff_not_imp_left]
    intro hcm
    refine ⟨g₀.homeOf c, List.mem_flatMap.mpr ⟨b, hb, List.mem_append.mpr ?_⟩, ?_⟩
    · cases hbc with
      | succ hsucc =>
        exact .inl (List.mem_map_of_mem (List.mem_filter.mpr ⟨hsucc, by simpa using hcm⟩))
      | enter ho hf hentry =>
        refine .inr (List.mem_map.mpr ⟨_, mem_entered.mpr ⟨_, ho, hf⟩, ?_⟩)
        rw [Program.entryBlock, hentry, Option.getD_some]
    · cases hbc with
      | succ hsucc => exact hstage.home ((hc.succ b hb c hsucc).resolve_left hcm)
      | enter ho hf hentry =>
        obtain ⟨-, hd, -⟩ := hc.callee b hb _ ho _ hf
        rw [Program.entryBlock, hentry, Option.getD_some] at hd
        exact hstage.home hd
  link t ht := by
    suffices ∃ b ∈ members, ∃ c, prog.BlockFlow b c ∧ done c ∧ g₀.homeOf c = t by
      obtain ⟨b, hb, c, hbc, hd, rfl⟩ := this
      refine ⟨b, hb, c, hbc, hstage.home hd, fun a ha => hc.reaches ha hb, fun x hx => ?_⟩
      exact Stage.enters hstage (hstage.home hd) hx .inl
    obtain ⟨b, hb, ht⟩ := List.mem_flatMap.mp ht
    rcases List.mem_append.mp ht with ht | ht
    · obtain ⟨s, hsm, rfl⟩ := List.mem_map.mp ht
      obtain ⟨hsucc, hnot⟩ := List.mem_filter.mp hsm
      refine ⟨b, hb, s, .succ hsucc, (hc.succ b hb s hsucc).resolve_left fun hm => ?_, rfl⟩
      simp [hm] at hnot
    · obtain ⟨f, hf, rfl⟩ := List.mem_map.mp ht
      obtain ⟨o, ho, hof⟩ := mem_entered.mp hf
      obtain ⟨hlt, hd, -⟩ := hc.callee b hb o ho f hof
      exact ⟨b, hb, _, .enter ho hof (hs.entry_ok hlt).2.2.1, hd, rfl⟩

theorem Component.not_transGen (hc : Component prog returns done members)
    (hstage : BlocksAt prog done g₀) (hloop : isLoop prog members = false) {b c : BlockId}
    (hb : b ∈ members) (hcm : c ∈ members) : ¬ Relation.TransGen prog.BlockFlow b c := by
  intro hbc
  obtain ⟨x, hm, hcycle⟩ := hc.single hloop
  obtain ⟨y, hby, hyc⟩ := Relation.TransGen.head'_iff.mp hbc
  have hd : done y := by
    cases hby with
    | succ hsucc =>
      refine (hc.succ b hb y hsucc).resolve_left fun hy => hcycle ?_
      rw [hm, List.mem_singleton] at hb hy
      rw [hb, hy] at hsucc
      exact .single hsucc
    | enter ho hf hentry =>
      obtain ⟨-, hd, -⟩ := hc.callee b hb _ ho _ hf
      rwa [Program.entryBlock, hentry, Option.getD_some] at hd
  rcases Relation.reflTransGen_iff_eq_or_transGen.mp hyc with rfl | hyc
  · exact hc.fresh c hcm hd
  · exact hc.fresh c hcm ((Stage.home hstage c).mp ((Stage.exact hstage).closed_path
      (hstage.home hd) hyc))

theorem addComponent_ok (hs : prog.Shaped) (hmax : prog.blocks.size ≤ BitMatrix.maxRows)
    (hc : Component prog returns done members) (hstage : BlocksAt prog done r.blocks)
    (hops : ∀ b, done b → ∃ n, r.ops.nodeOf? (prog.firstOp b) = some n) :
    ∃ g n, r.addComponent prog members (isLoop prog members) = .ok ({ r with blocks := g }, n) ∧
      BlocksAt prog (fun b => done b ∨ b ∈ members) g := by
  have hfresh : ∀ b ∈ members, r.blocks.nodeOf? b = none :=
    fun b hb => Stage.fresh hstage (hc.fresh b hb)
  obtain ⟨b, hb⟩ := List.exists_mem_of_ne_nil _ hc.ne_nil
  obtain ⟨g₁, h₁, hg₁⟩ := create_ok (Stage.ready hstage) (isLoop prog members) (hc.lt b hb)
    (hfresh b hb) hmax
  obtain ⟨g₂, h₂, hg₂⟩ := addMembers_ok hg₁ blockLabel (by simpa using hc.nodup) hfresh
  rw [List.nil_append] at hg₂
  obtain ⟨g₃, h₃, hg₃⟩ := linkBlocks_ok (r := { r with blocks := g₂ }) hs hc hstage hg₂ hc.fresh hops
    (fun _ hx => hx)
  rw [List.nil_append] at hg₃
  obtain ⟨g₄, h₄, hg₄⟩ := hg₃.lock
  refine ⟨g₄, r.blocks.nodes.size, ?_, ?_⟩
  · simp only [addComponent, h₁, h₂, h₃, h₄, Checked.ok_bind]
    rfl
  · refine Stage.grow hstage hg₄ hc.ne_nil hc.lt hc.fresh ?_ ?_ (blockLinks_leaves hs hc hstage)
    · intro x hx y hy
      cases hloop : isLoop prog members with
      | true => exact .inl rfl
      | false =>
        obtain ⟨c, hm, -⟩ := hc.single hloop
        rw [hm, List.mem_singleton] at hx hy
        exact .inr (hx.trans hy.symm)
    · intro x hx y hy
      cases hloop : isLoop prog members with
      | true =>
        refine iff_of_true (.inl rfl) ?_
        exact Relation.TransGen.mono (fun _ _ h => .succ h) _ _ (hc.cycle hloop hx hy)
      | false => exact iff_of_false (by simp) (hc.not_transGen hstage hloop hx hy)

theorem agrees_table (returns : Table ProcId Bool) :
    Agrees returns fun p => returns.get? p = some true := by
  intro p v hv
  show returns.get? p = some true ↔ v = true
  rw [hv, Option.some.injEq]

/-- The operations of the blocks that are done. -/
def opsOf (prog : Program) (done : BlockId → Prop) (o : OpId) : Prop :=
  o < prog.ops.size ∧ done (prog.blockOf o)

variable {doneOp : OpId → Prop}

theorem OpsAt.ready (h : OpsAt prog returns doneOp g₀) : g₀.Ready prog.ops.size :=
  (h _ (agrees_table returns)).ready

theorem OpsAt.home (h : OpsAt prog returns doneOp g₀) {o : OpId} (ho : doneOp o) :
    g₀.nodeOf? o = some (g₀.homeOf o) := by
  obtain ⟨n, hn⟩ := ((h _ (agrees_table returns)).home o).mpr ho
  rw [homeOf, hn, Option.getD_some]

theorem OpsAt.home_lt (h : OpsAt prog returns doneOp g₀) {o : OpId} (ho : doneOp o) :
    g₀.homeOf o < g₀.nodes.size := h.ready.home_lt (h.home ho)

theorem OpsAt.fresh (h : OpsAt prog returns doneOp g₀) {o : OpId} (ho : ¬ doneOp o) :
    g₀.nodeOf? o = none := (h _ (agrees_table returns)).fresh ho

theorem OpsAt.enters (hs : prog.Shaped) (h : OpsAt prog returns doneOp g₀) {back : ProcId → Prop}
    (hback : Agrees returns back) {o x : OpId} (ho : doneOp o) (hpos : (prog.op o).position = 0)
    (hx : g₀.nodeOf? x = some (g₀.homeOf o)) : Relation.ReflTransGen (prog.Flow back) o x := by
  have hstage := h back hback
  refine hstage.enters (h.home ho) hx fun hsame => ?_
  have hxlt := hstage.lt x ((hstage.home x).mp ⟨_, hx⟩)
  rcases Nat.eq_zero_or_pos (prog.op x).position with hzero | hlt
  · exact .inl (hs.op_ext (hstage.lt o ho) hxlt hsame (hpos.trans hzero.symm))
  · exact .inr (hpos ▸ hlt)

theorem firstOp_ok (hs : prog.Shaped) {b : BlockId} (hb : b < prog.blocks.size) :
    prog.firstOp b < prog.ops.size ∧ prog.blockOf (prog.firstOp b) = b ∧
      (prog.op (prog.firstOp b)).position = 0 := hs.opAt?_iff.mp (hs.opAt?_firstOp hb)

def enterLinks (prog : Program) (g₀ : Quotient) (o : OpId) : List NodeId :=
  (entered prog [o]).map fun f => g₀.homeOf (prog.firstOp (prog.entryBlock f))

theorem mem_enterLinks {o : OpId} {t : NodeId} : t ∈ enterLinks prog g₀ o ↔
    ∃ f, (prog.kind o).callEdge? = some f ∧ g₀.homeOf (prog.firstOp (prog.entryBlock f)) = t := by
  simp [enterLinks, entered]

structure CalleesAt (prog : Program) (r : Reachability) (doneOp : OpId → Prop) (os : List OpId) :
    Prop where
  callee : ∀ o ∈ os, ∀ f, (prog.kind o).callEdge? = some f → f < prog.procs.size ∧
    doneOp (prog.firstOp (prog.entryBlock f)) ∧
    (∃ n, r.blocks.nodeOf? (prog.entryBlock f) = some n) ∧ ∃ v, r.returns.get? f = some v

theorem entryOpNode_ok (hs : prog.Shaped) (hstage : OpsAt prog returns doneOp g₀)
    (hg : Grown g₀ loop false ms ts r.ops) (hms : ∀ e ∈ ms, ¬ doneOp e) {f : ProcId}
    (hf : f < prog.procs.size) (hd : doneOp (prog.firstOp (prog.entryBlock f)))
    (hb : ∃ n, r.blocks.nodeOf? (prog.entryBlock f) = some n) :
    r.entryOpNode prog f = .ok (g₀.homeOf (prog.firstOp (prog.entryBlock f))) := by
  obtain ⟨n, hn⟩ := hb
  have ho : r.ops.nodeOf? (prog.firstOp (prog.entryBlock f)) =
      some (g₀.homeOf (prog.firstOp (prog.entryBlock f))) := by
    rw [hg.home, if_neg fun hm => hms _ hm hd]
    exact hstage.home hd
  rw [entryOpNode, entryNodes_ok hs hf hn ho]
  rfl

theorem firstNode_ok (hs : prog.Shaped) (hstage : OpsAt prog returns doneOp g₀)
    (hg : Grown g₀ loop false ms ts r.ops) (hms : ∀ e ∈ ms, ¬ doneOp e) {s : BlockId}
    (hlt : s < prog.blocks.size) (hd : doneOp (prog.firstOp s)) :
    r.firstNode prog s = .ok (g₀.homeOf (prog.firstOp s)) := by
  have ho : r.ops.nodeOf? (prog.firstOp s) = some (g₀.homeOf (prog.firstOp s)) := by
    rw [hg.home, if_neg fun hm => hms _ hm hd]
    exact hstage.home hd
  refine Checked.bind_ok.mpr ⟨prog.firstOp s, Checked.index_ok.mpr (hs.opAt?_firstOp hlt), ?_⟩
  rw [ho]
  rfl

theorem addLoopOps_ok (hs : prog.Shaped) (hstage : OpsAt prog returns doneOp g₀)
    (hg : Grown g₀ loop false ms ts r.ops) {os : List OpId} (hnd : (ms ++ os).Nodup)
    (hnew : ∀ e ∈ ms ++ os, ¬ doneOp e) (hcallee : CalleesAt prog r doneOp os) :
    ∃ g', addLoopOps prog g₀.nodes.size r os = .ok { r with ops := g' } ∧
      Grown g₀ loop false (ms ++ os) (ts ++ os.flatMap (enterLinks prog g₀)) g' := by
  induction os generalizing r ms ts with
  | nil => exact ⟨r.ops, rfl, by simpa using hg⟩
  | cons o os ih =>
    have hassoc : ms ++ o :: os = (ms ++ [o]) ++ os := by simp
    rw [hassoc] at hnd hnew ⊢
    obtain ⟨g₁, h₁, hg₁⟩ := addMembers_ok hg opLabel (List.nodup_append.mp hnd).1
      fun e he => hstage.fresh (hnew e (by simp [List.mem_singleton.mp he]))
    have hnew₁ : ∀ e ∈ ms ++ [o], ¬ doneOp e := fun e he => hnew e (List.mem_append_left _ he)
    have hlinks : (entered prog [o]).map (entryOpNode prog { r with ops := g₁ }) =
        (enterLinks prog g₀ o).map .ok := by
      rw [enterLinks, List.map_map]
      refine List.map_congr_left fun f hf => ?_
      obtain ⟨x, hx, hxf⟩ := mem_entered.mp hf
      rw [List.mem_singleton.mp hx] at hxf
      obtain ⟨hlt, hd, hb, -⟩ := hcallee.callee o List.mem_cons_self f hxf
      exact entryOpNode_ok (r := { r with ops := g₁ }) hs hstage hg₁ hnew₁ hlt hd hb
    obtain ⟨g₂, h₂, hg₂⟩ := linkAll_ok hg₁ hstage.ready (enterLinks prog g₀ o) fun t ht => by
      obtain ⟨f, hf, rfl⟩ := mem_enterLinks.mp ht
      exact hstage.home_lt (hcallee.callee o List.mem_cons_self f hf).2.1
    obtain ⟨g₃, h₃, hg₃⟩ := ih (r := { r with ops := g₂ }) hg₂ hnd hnew
      ⟨fun x hx => hcallee.callee x (List.mem_cons_of_mem _ hx)⟩
    refine ⟨g₃, ?_, by rwa [List.flatMap_cons, ← List.append_assoc]⟩
    simp only [addLoopOps, h₁, hlinks, h₂, h₃, Checked.ok_bind]

theorem opsOf_firstOp (hs : prog.Shaped) {b : BlockId} (hlt : b < prog.blocks.size) (hd : done b) :
    opsOf prog done (prog.firstOp b) := by
  obtain ⟨ho, hb, -⟩ := firstOp_ok hs hlt
  exact ⟨ho, hb.symm ▸ hd⟩

theorem Component.calleesAt (hc : Component prog r.returns done members) (hs : prog.Shaped)
    (hblk : ∀ b, done b → ∃ n, r.blocks.nodeOf? b = some n) {b : BlockId} (hb : b ∈ members) :
    CalleesAt prog r (opsOf prog done) (prog.block b).ops where
  callee o ho f hf := by
    obtain ⟨hlt, hd, hv⟩ := hc.callee b hb o ho f hf
    exact ⟨hlt, opsOf_firstOp hs (hs.entry_ok hlt).2.2.2.1 hd, hblk _ hd, hv⟩

theorem Component.not_opsOf (hc : Component prog returns done members) (hs : prog.Shaped)
    {b : BlockId} (hb : b ∈ members) {o : OpId} (ho : o ∈ (prog.block b).ops) :
    ¬ opsOf prog done o := by
  rintro ⟨-, hd⟩
  rw [(hs.mem_ops.mp ho).2] at hd
  exact hc.fresh b hb hd

def loopLinks (prog : Program) (g₀ : Quotient) (inside : List BlockId) (b : BlockId) :
    List NodeId :=
  (prog.block b).ops.flatMap (enterLinks prog g₀) ++
    ((prog.block b).succs.filter fun s => !inside.contains s).map fun s =>
      g₀.homeOf (prog.firstOp s)

theorem addLoopBlocks_ok (hs : prog.Shaped) (hc : Component prog r.returns done members)
    (hblk : ∀ b, done b → ∃ n, r.blocks.nodeOf? b = some n)
    (hstage : OpsAt prog r.returns (opsOf prog done) g₀) (hg : Grown g₀ loop false ms ts r.ops)
    {bs : List BlockId} (hbs : ∀ b ∈ bs, b ∈ members)
    (hnd : (ms ++ bs.flatMap fun b => (prog.block b).ops).Nodup)
    (hms : ∀ e ∈ ms, ¬ opsOf prog done e) :
    ∃ g', addLoopBlocks prog members g₀.nodes.size r bs = .ok { r with ops := g' } ∧
      Grown g₀ loop false (ms ++ bs.flatMap fun b => (prog.block b).ops)
        (ts ++ bs.flatMap (loopLinks prog g₀ members)) g' := by
  induction bs generalizing r ms ts with
  | nil => exact ⟨r.ops, rfl, by simpa using hg⟩
  | cons b bs ih =>
    have hb := hbs b List.mem_cons_self
    have hblock : prog.block? b = some (prog.block b) := by
      have := hc.lt b hb
      simp [Program.block, Program.block?, this]
    rw [List.flatMap_cons, ← List.append_assoc] at hnd
    have hms₁ : ∀ e ∈ ms ++ (prog.block b).ops, ¬ opsOf prog done e := by
      intro e he
      rcases List.mem_append.mp he with he | he
      · exact hms e he
      · exact hc.not_opsOf hs hb he
    obtain ⟨g₁, h₁, hg₁⟩ := addLoopOps_ok hs hstage hg (List.nodup_append.mp hnd).1 hms₁
      (hc.calleesAt hs hblk hb)
    have hout : ∀ s ∈ (prog.block b).succs.filter fun s => !members.contains s,
        s < prog.blocks.size ∧ opsOf prog done (prog.firstOp s) := by
      intro s hsm
      obtain ⟨hsucc, hnot⟩ := List.mem_filter.mp hsm
      have hlt := (hs.succ b (hc.lt b hb) s hsucc).1
      refine ⟨hlt, opsOf_firstOp hs hlt ((hc.succ b hb s hsucc).resolve_left fun hm => ?_)⟩
      simp [hm] at hnot
    have hlinks : ((prog.block b).succs.filter fun s => !members.contains s).map
        (firstNode prog { r with ops := g₁ }) =
        (((prog.block b).succs.filter fun s => !members.contains s).map fun s =>
          g₀.homeOf (prog.firstOp s)).map .ok := by
      rw [List.map_map]
      refine List.map_congr_left fun s hsm => ?_
      exact firstNode_ok (r := { r with ops := g₁ }) hs hstage hg₁ hms₁ (hout s hsm).1 (hout s hsm).2
    obtain ⟨g₂, h₂, hg₂⟩ := linkAll_ok hg₁ hstage.ready _
      (List.forall_mem_map.mpr fun s hsm => hstage.home_lt (hout s hsm).2)
    obtain ⟨g₃, h₃, hg₃⟩ := ih (r := { r with ops := g₂ }) hc hblk hstage hg₂
      (fun x hx => hbs x (List.mem_cons_of_mem _ hx)) hnd hms₁
    refine ⟨g₃, ?_, ?_⟩
    · simp only [addLoopBlocks, hblock, Checked.index_some, Checked.ok_bind, h₁, hlinks, h₂, h₃]
    · rw [List.flatMap_cons, List.flatMap_cons, loopLinks, ← List.append_assoc, ← List.append_assoc,
        ← List.append_assoc]
      exact hg₃

theorem mem_flatMap_ops (hs : prog.Shaped) {o : OpId} :
    o ∈ members.flatMap (fun b => (prog.block b).ops) ↔
      o < prog.ops.size ∧ prog.blockOf o ∈ members := by
  simp only [List.mem_flatMap, hs.mem_ops]
  constructor
  · rintro ⟨b, hb, ho, rfl⟩
    exact ⟨ho, hb⟩
  · rintro ⟨ho, hb⟩
    exact ⟨_, hb, ho, rfl⟩

theorem nodup_flatMap_ops (hs : prog.Shaped) (hnd : members.Nodup) :
    (members.flatMap fun b => (prog.block b).ops).Nodup := by
  refine List.nodup_flatMap.mpr ⟨fun b _ => hs.nodup_ops b, hnd.imp fun {b c} hbc x hxb hxc => ?_⟩
  exact hbc ((hs.mem_ops.mp hxb).2.symm.trans (hs.mem_ops.mp hxc).2)

theorem Component.flow_loop (hc : Component prog returns done members) (hs : prog.Shaped)
    (hloop : isLoop prog members = true) {back : ProcId → Prop} {a b : OpId}
    (ha : a ∈ members.flatMap fun b => (prog.block b).ops)
    (hb : b ∈ members.flatMap fun b => (prog.block b).ops) :
    Relation.TransGen (prog.Flow back) a b := by
  obtain ⟨halt, ham⟩ := (mem_flatMap_ops hs).mp ha
  obtain ⟨hblt, hbm⟩ := (mem_flatMap_ops hs).mp hb
  exact hs.flow_loop halt hblt (hc.cycle hloop ham hbm) ((hc.strong _ hbm _).mp ham).1

theorem loopLinks_leaves (hs : prog.Shaped) (hc : Component prog returns done members)
    (hloop : isLoop prog members = true) (hstage : OpsAt prog returns (opsOf prog done) g₀)
    {back : ProcId → Prop} (hback : Agrees returns back) :
    Leaves g₀ (prog.Flow back) (members.flatMap fun b => (prog.block b).ops)
      (members.flatMap (loopLinks prog g₀ members)) where
  out a ha b hab := by
    obtain ⟨halt, ham⟩ := (mem_flatMap_ops hs).mp ha
    have hfollows : prog.Follows a b → b ∈ members.flatMap fun b => (prog.block b).ops := by
      intro hf
      obtain ⟨hblt, hbb, -⟩ := hs.follows_iff.mp hf
      exact (mem_flatMap_ops hs).mpr ⟨hblt, hbb.symm ▸ ham⟩
    cases hab with
    | next _ _ hf => exact .inl (hfollows hf)
    | resume _ _ hf => exact .inl (hfollows hf)
    | @enter _ f hf hentry =>
      obtain ⟨hlt, hd, -⟩ := hc.callee _ ham a (hs.mem_ops.mpr ⟨halt, rfl⟩) f hf
      rw [(hs.entry_ok hlt).2.2.2.2.2] at hentry
      cases hentry
      refine .inr ⟨_, List.mem_flatMap.mpr ⟨_, ham, List.mem_append_left _ ?_⟩,
        hstage.home (opsOf_firstOp hs (hs.entry_ok hlt).2.2.2.1 hd)⟩
      exact List.mem_flatMap.mpr ⟨a, hs.mem_ops.mpr ⟨halt, rfl⟩, mem_enterLinks.mpr ⟨f, hf, rfl⟩⟩
    | @branch s _ hk hsucc hfirst =>
      have hslt := (hs.succ _ (hc.lt _ ham) s hsucc).1
      rw [hs.opAt?_firstOp hslt] at hfirst
      cases hfirst
      by_cases hsm : s ∈ members
      · obtain ⟨hflt, hfb, -⟩ := firstOp_ok hs hslt
        exact .inl ((mem_flatMap_ops hs).mpr ⟨hflt, hfb.symm ▸ hsm⟩)
      · refine .inr ⟨_, List.mem_flatMap.mpr ⟨_, ham, List.mem_append_right _ ?_⟩, hstage.home
          (opsOf_firstOp hs hslt ((hc.succ _ ham s hsucc).resolve_left hsm))⟩
        exact List.mem_map.mpr ⟨s, List.mem_filter.mpr ⟨hsucc, by simpa using hsm⟩, rfl⟩
  link t ht := by
    suffices ∃ x ∈ members.flatMap (fun b => (prog.block b).ops), ∃ y, prog.Flow back x y ∧
        opsOf prog done y ∧ (prog.op y).position = 0 ∧ g₀.homeOf y = t by
      obtain ⟨x, hx, y, hxy, hd, hpos, rfl⟩ := this
      exact ⟨x, hx, y, hxy, hstage.home hd, fun a ha =>
        (hc.flow_loop hs hloop ha hx).to_reflTransGen, fun b hb => hstage.enters hs hback hd hpos hb⟩
    obtain ⟨b, hb, ht⟩ := List.mem_flatMap.mp ht
    rcases List.mem_append.mp ht with ht | ht
    · obtain ⟨o, ho, ht⟩ := List.mem_flatMap.mp ht
      obtain ⟨f, hf, rfl⟩ := mem_enterLinks.mp ht
      obtain ⟨hlt, hd, -⟩ := hc.callee b hb o ho f hf
      obtain ⟨-, -, -, helt, -, hentry⟩ := hs.entry_ok hlt
      exact ⟨o, List.mem_flatMap.mpr ⟨b, hb, ho⟩, _, .enter hf hentry, opsOf_firstOp hs helt hd,
        (firstOp_ok hs helt).2.2, rfl⟩
    · obtain ⟨s, hsm, rfl⟩ := List.mem_map.mp ht
      obtain ⟨hsucc, hnot⟩ := List.mem_filter.mp hsm
      have hslt := (hs.succ b (hc.lt b hb) s hsucc).1
      have hd : done s := (hc.succ b hb s hsucc).resolve_left fun hm => by simp [hm] at hnot
      obtain ⟨x, hx, hxb, hk, -⟩ := hs.exists_branch (hc.lt b hb) hsucc
      exact ⟨x, (mem_flatMap_ops hs).mpr ⟨hx, hxb.symm ▸ hb⟩, _,
        .branch hk (hxb.symm ▸ hsucc) (hs.opAt?_firstOp hslt), opsOf_firstOp hs hslt hd,
        (firstOp_ok hs hslt).2.2, rfl⟩

theorem addLoop_ok (hs : prog.Shaped) (hmax : prog.ops.size ≤ BitMatrix.maxRows)
    (hc : Component prog r.returns done members) (hloop : isLoop prog members = true)
    (hblk : ∀ b, done b → ∃ n, r.blocks.nodeOf? b = some n)
    (hstage : OpsAt prog r.returns (opsOf prog done) r.ops) (parent : NodeId) :
    ∃ g, r.addLoop prog members parent = .ok { r with ops := g } ∧
      OpsAt prog r.returns (opsOf prog fun b => done b ∨ b ∈ members) g := by
  have hfresh : ∀ o ∈ members.flatMap (fun b => (prog.block b).ops), ¬ opsOf prog done o := by
    intro o ho
    obtain ⟨b, hb, ho⟩ := List.mem_flatMap.mp ho
    exact hc.not_opsOf hs hb ho
  obtain ⟨b, hb⟩ := List.exists_mem_of_ne_nil _ hc.ne_nil
  obtain ⟨o, ho⟩ := List.exists_mem_of_ne_nil _ (hs.ops_ne b (hc.lt b hb))
  have hom : o ∈ members.flatMap fun b => (prog.block b).ops := List.mem_flatMap.mpr ⟨b, hb, ho⟩
  obtain ⟨g₁, h₁, hg₁⟩ := create_ok hstage.ready true (hs.mem_ops.mp ho).1
    (hstage.fresh (hfresh o hom)) hmax
  obtain ⟨g₂, h₂, hg₂⟩ := hg₁.setParent parent
  obtain ⟨g₃, h₃, hg₃⟩ := addLoopBlocks_ok (r := { r with ops := g₂ }) hs hc hblk hstage hg₂
    (fun _ hx => hx) (by simpa using nodup_flatMap_ops hs hc.nodup) (by simp)
  rw [List.nil_append, List.nil_append] at hg₃
  obtain ⟨g₄, h₄, hg₄⟩ := hg₃.lock
  refine ⟨g₄, ?_, fun back hback => ?_⟩
  · simp only [addLoop, h₁, h₂, h₃, h₄, Checked.ok_bind]
    rfl
  · refine Stage.congr (Stage.grow (hstage back hback) hg₄ (List.ne_nil_of_mem hom)
      (fun x hx => ((mem_flatMap_ops hs).mp hx).1) hfresh (fun _ _ _ _ => .inl rfl)
      (fun a ha b hb => iff_of_true (.inl rfl) (hc.flow_loop hs hloop ha hb))
      (loopLinks_leaves hs hc hloop hstage hback)) fun x => ?_
    rw [mem_flatMap_ops hs, opsOf, opsOf, and_or_left]

end

end Reachability

end YieldPlan
