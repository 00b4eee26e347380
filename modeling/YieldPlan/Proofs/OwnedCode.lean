import YieldPlan.Ownership
import YieldPlan.Proofs.ControlFlow
import YieldPlan.Proofs.WalkCoverage

/-! The walk that assigns operations to threads goes into every callee, and past a call if the
callee may return. All operations that follow one another in this way from the first point of a
thread are owned by it, and the points after its calls are recorded as return sites. -/

namespace YieldPlan

namespace Program

variable (prog : Program)

/-- One step within a thread, given the procedures that can return. -/
inductive Advance (returns : ProcId → Prop) : OpId → OpId → Prop where
  | next {o o'} : ¬ (prog.kind o).isTerminator → (prog.kind o).callee? = none →
      prog.Follows o o' → Advance returns o o'
  | enter {o o' f} : (prog.kind o).callee? = some f → prog.entryOp? f = some o' →
      Advance returns o o'
  | resume {o o' f} : (prog.kind o).callee? = some f → returns f → prog.Follows o o' →
      Advance returns o o'
  | branch {o s o'} : prog.kind o = .terminator .branch → prog.Succ (prog.blockOf o) s →
      prog.opAt? s 0 = some o' → Advance returns o o'

variable {prog} {returns : ProcId → Prop}

theorem Advance.flow {o o' : OpId} (h : prog.Advance returns o o') : prog.Flow returns o o' := by
  cases h with
  | next ht hc hf => exact .next ht hc hf
  | enter hc he => exact .enter (callEdge?_of_callee? hc) he
  | resume hc hr hf => exact .resume hc (.inl hr) hf
  | branch hk hs ho => exact .branch hk hs ho

theorem ops?_eq {p : Point} {ops : List OpId} (h : p.ops? prog = some ops) :
    ops = (prog.block p.block).ops.drop p.start ∧ p.block < prog.blocks.size := by
  obtain ⟨b, hb, h⟩ := Option.bind_eq_some_iff.mp h
  have hblock : prog.block p.block = b := by rw [block, hb]; rfl
  rw [hblock]
  split at h
  · exact ⟨(Option.some.inj h).symm, (Array.getElem?_eq_some_iff.mp hb).1⟩
  · cases h

theorem ops?_of_opAt? {b : BlockId} {i : Nat} {o : OpId} (h : prog.opAt? b i = some o) :
    ∃ rest, (⟨b, i⟩ : Point).ops? prog = some (o :: rest) := by
  have hlt : b < prog.blocks.size := by
    by_contra hb
    rw [opAt?, block_of_le (Nat.le_of_not_lt hb)] at h
    cases h
  have hb : prog.block? b = some (prog.block b) := by simp [block, block?, hlt]
  obtain ⟨hi, ho⟩ := List.getElem?_eq_some_iff.mp h
  refine ⟨(prog.block b).ops.drop (i + 1), ?_⟩
  rw [Point.ops?, hb, Option.bind_some, if_pos (Nat.le_of_lt hi), List.drop_eq_getElem_cons hi, ho]

theorem ops?_suffix {p : Point} {ops : List OpId} (h : p.ops? prog = some ops) :
    ops <:+ (prog.block p.block).ops := by
  rw [(ops?_eq h).1]
  exact List.drop_suffix _ _

theorem ops?_head? {p : Point} {ops : List OpId} (h : p.ops? prog = some ops) :
    ops.head? = p.op? prog := by
  rw [(ops?_eq h).1, List.head?_drop]
  rfl

theorem op?_of_ops? {p : Point} {o : OpId} {rest : List OpId}
    (h : p.ops? prog = some (o :: rest)) : p.op? prog = some o :=
  (ops?_head? h).symm

theorem Coherent.point_ext (hc : prog.Coherent) {p q : Point} {o : OpId} (hp : p.op? prog = some o)
    (hq : q.op? prog = some o) : p = q := by
  obtain ⟨-, hblock, hstart⟩ := hc.opAt?_iff.mp hp
  obtain ⟨-, hblock', hstart'⟩ := hc.opAt?_iff.mp hq
  cases p
  cases q
  simp_all

theorem ops?_entry {f : ProcId} {o : OpId} (h : prog.entryOp? f = some o) :
    ∃ rest, (Point.entry (prog.entryBlock f)).ops? prog = some (o :: rest) := by
  obtain ⟨b, hb, ho⟩ := Option.bind_eq_some_iff.mp h
  rw [entryBlock, hb]
  exact ops?_of_opAt? ho

theorem Coherent.drop_of_suffix (hc : prog.Coherent) {b : BlockId} {o : OpId} {rest : List OpId}
    (hs : o :: rest <:+ (prog.block b).ops) :
    prog.blockOf o = b ∧ (prog.block b).ops.drop (prog.op o).position = o :: rest := by
  obtain ⟨pre, hpre⟩ := hs
  have hat : prog.opAt? b pre.length = some o := by rw [opAt?, ← hpre]; simp
  obtain ⟨-, hb, hp⟩ := hc.opAt?_iff.mp hat
  refine ⟨hb, ?_⟩
  rw [hp, ← hpre]
  simp

theorem Coherent.suffix_of_pointAfter (hc : prog.Coherent) {o : OpId} {ops : List OpId}
    (ho : o < prog.ops.size) (hops : (prog.pointAfter o).ops? prog = some ops) :
    o :: ops <:+ (prog.block (prog.blockOf o)).ops := by
  obtain ⟨hpos, hget⟩ := List.getElem?_eq_some_iff.mp (hc.opAt?_self ho)
  have hdrop := List.drop_suffix (prog.op o).position (prog.block (prog.blockOf o)).ops
  rw [List.drop_eq_getElem_cons hpos, hget] at hdrop
  rw [(ops?_eq hops).1]
  exact hdrop

theorem Coherent.follows_iff_head? (hc : prog.Coherent) {b : BlockId} {o o' : OpId}
    {rest : List OpId} (hs : o :: rest <:+ (prog.block b).ops) :
    prog.Follows o o' ↔ rest.head? = some o' := by
  obtain ⟨hb, hdrop⟩ := hc.drop_of_suffix hs
  have hnext : (prog.block b).ops[(prog.op o).position + 1]? = rest.head? := by
    rw [← List.getElem?_drop, hdrop]
    simp [List.head?_eq_getElem?]
  rw [Follows, hb, opAt?, hnext]

theorem Coherent.suffix_follows (h : prog.Coherent) {b : BlockId} {o o' : OpId} {rest : List OpId}
    (hs : o :: rest <:+ (prog.block b).ops) (hf : prog.Follows o o') :
    prog.blockOf o = b ∧ ∃ rest', rest = o' :: rest' :=
  ⟨(h.drop_of_suffix hs).1, List.head?_eq_some_iff.mp ((h.follows_iff_head? hs).mp hf)⟩

theorem Coherent.follows_of_suffix (hc : prog.Coherent) {b : BlockId} {o o' : OpId}
    {rest : List OpId} (hs : o :: o' :: rest <:+ (prog.block b).ops) :
    prog.blockOf o = b ∧ prog.Follows o o' :=
  ⟨(hc.drop_of_suffix hs).1, (hc.follows_iff_head? hs).mpr rfl⟩

theorem Shaped.terminator_last (hs : prog.Shaped) {b : BlockId} {o : OpId} {rest : List OpId}
    (hsuffix : o :: rest <:+ (prog.block b).ops) (hk : (prog.kind o).isTerminator) : rest = [] := by
  by_contra hne
  obtain ⟨holt, hob⟩ := hs.mem_ops.mp (hsuffix.subset List.mem_cons_self)
  obtain ⟨pre, hops⟩ := hsuffix
  refine hs.inner b (hob ▸ hs.blockOf_lt holt) o ?_ hk
  rw [← hops, List.dropLast_append_cons, List.dropLast_cons_of_ne_nil hne]
  simp

end Program

namespace Ownership

open Program

variable {prog : Program} {r : Reachability} {ts : Threads} {mayAlias : AliasOracle} {t : ThreadId}

structure Grows (own own' : Ownership) : Prop where
  owner : ∀ o t, own.owner? o = some t → own'.owner? o = some t
  sites : ∀ f, ∀ q ∈ own.sites f, q ∈ own'.sites f

theorem Grows.refl (own : Ownership) : own.Grows own := ⟨fun _ _ h => h, fun _ _ h => h⟩

theorem Grows.trans {a b c : Ownership} (h : a.Grows b) (k : b.Grows c) : a.Grows c :=
  ⟨fun o t ht => k.owner o t (h.owner o t ht), fun f q hq => k.sites f q (h.sites f q hq)⟩

theorem visit_ok {o : OpId} {a : Area} {own own' : Ownership} {st : Step}
    (h : visit prog ts mayAlias t o a own = .ok st own') :
    st = .continue a ∧ own.Grows own' ∧ own'.owner? o = some t := by
  obtain ⟨v, u, hg, h₁⟩ := Action.bind_ok.mp h
  obtain ⟨rfl, rfl⟩ := Action.get_ok.mp hg
  cases ho : own.owner? o with
  | none =>
    simp only [ho] at h₁
    cases h₁
    refine ⟨rfl, ⟨?_, fun _ _ hq => hq⟩, ?_⟩
    · intro x u hx
      have hne : x ≠ o := by
        rintro rfl
        rw [ho] at hx
        cases hx
      simpa [owner?, claim, Table.get?_put, hne] using hx
    · simp [owner?, claim, Table.get?_put]
  | some first =>
    simp only [ho] at h₁
    by_cases hf : first = t
    · simp only [hf, ne_eq, not_true_eq_false, if_false] at h₁
      obtain ⟨rfl, rfl⟩ := Action.pure_ok.mp h₁
      exact ⟨rfl, .refl _, hf ▸ ho⟩
    · simp only [ne_eq, hf, not_false_eq_true, if_true] at h₁
      cases h₁

theorem sites_addSite (own : Ownership) (f : ProcId) (q : Point) (g : ProcId) :
    (own.addSite f q).sites g =
      if g = f then (if q ∈ own.sites f then own.sites f else own.sites f ++ [q])
      else own.sites g := by
  simp only [addSite, sites, Table.get?_put]
  by_cases hg : g = f <;> simp [hg]

theorem addSite_grows (own : Ownership) (f : ProcId) (q : Point) :
    own.Grows (own.addSite f q) ∧ q ∈ (own.addSite f q).sites f := by
  refine ⟨⟨fun _ _ h => h, fun g x hx => ?_⟩, ?_⟩
  · rw [sites_addSite]
    by_cases hg : g = f
    · subst hg
      rw [if_pos rfl]
      split
      · exact hx
      · exact List.mem_append_left _ hx
    · rwa [if_neg hg]
  · rw [sites_addSite, if_pos rfl]
    split
    · assumption
    · simp

theorem afterCall_ok {f : ProcId} {q : Point} {own own' : Ownership} {l : List Point}
    (h : afterCall prog r f q own = .ok l own') :
    own.Grows own' ∧ q ∈ own'.sites f ∧ Point.entry (prog.entryBlock f) ∈ l ∧
      (r.mayReturn f = true → q ∈ l) := by
  obtain ⟨_, u, hm, h₁⟩ := Action.bind_ok.mp h
  obtain rfl := Action.modify_ok.mp hm
  obtain ⟨rfl, rfl⟩ := Action.pure_ok.mp h₁
  obtain ⟨hg, hq⟩ := addSite_grows own f q
  refine ⟨hg, hq, ?_, fun hr => ?_⟩
  · split <;> simp
  · simp [hr]

theorem processor_respects : (processor prog r ts mayAlias t).Respects Grows where
  refl := .refl
  trans := .trans
  visit h := (visit_ok h).2.1
  afterCall h := (afterCall_ok h).1
  afterReturn h := (Action.pure_ok.mp h).2 ▸ .refl _
  revisit h := (Action.pure_ok.mp h).2 ▸ .refl _

def Stays (prog : Program) (o : OpId) : Prop :=
  ¬ (prog.kind o).isTerminator ∧ (prog.kind o).callee? = none

/-- What a run does at an operation that it comes to. -/
structure Ran (prog : Program) (r : Reachability) (t : ThreadId) (b : Block) (next : List Point)
    (own : Ownership) (o : OpId) : Prop where
  owner : own.owner? o = some t
  call : ∀ f, (prog.kind o).callee? = some f → prog.pointAfter o ∈ own.sites f ∧
    Point.entry (prog.entryBlock f) ∈ next ∧ (r.mayReturn f = true → prog.pointAfter o ∈ next)
  branch : prog.kind o = .terminator .branch → ∀ s ∈ b.succs, Point.entry s ∈ next

theorem runBlock_ran {b : Block} {a out : Area} {pre post : List OpId} {o : OpId}
    {succs next : List Point} {own own' : Ownership} (hpre : ∀ x ∈ pre, Stays prog x)
    (hlast : (prog.kind o).isTerminator → post = [])
    (h : Walk.runBlock prog (processor prog r ts mayAlias t) b a succs (pre ++ o :: post) own =
      .ok (out, next) own') : Ran prog r t b next own' o := by
  induction pre generalizing a succs own with
  | nil =>
    rcases Walk.runBlock_cons h with ⟨c, points, hv, -⟩ | ⟨c, v, f, l, hv, hk, hl, hx⟩ |
      ⟨c, v, l, w, hv, hk, hl, hrest⟩
    · cases (visit_ok hv).1
    · obtain ⟨-, -, howner⟩ := visit_ok hv
      obtain ⟨hg, hsite, hentry, hcont⟩ := afterCall_ok hl
      obtain rfl : next = l := congrArg Prod.snd hx
      refine ⟨hg.owner o t howner, fun f' hf => ?_, by simp [hk]⟩
      obtain rfl : f = f' := by simpa [hk, OpKind.callee?] using hf
      exact ⟨hsite, hentry, hcont⟩
    · obtain ⟨-, -, howner⟩ := visit_ok hv
      have hg : v.Grows own' := (Walk.follow_runs processor_respects.runs hl).trans
        (Walk.runBlock_respects processor_respects hrest)
      refine ⟨hg.owner o t howner, by simp [hk], fun hbranch s hs => ?_⟩
      obtain rfl : post = [] := hlast (by simp [hbranch, OpKind.isTerminator])
      rw [hbranch] at hl
      obtain ⟨rfl, -⟩ := Action.pure_ok.mp hl
      obtain rfl : _ = next := congrArg Prod.snd (Action.pure_ok.mp hrest).1
      exact List.mem_map_of_mem hs
  | cons x pre ih =>
    rw [List.cons_append] at h
    obtain ⟨-, hcall⟩ := hpre x List.mem_cons_self
    rcases Walk.runBlock_cons h with ⟨c, points, hv, -⟩ | ⟨c, v, f, l, hv, hk, -⟩ |
      ⟨c, v, l, w, -, -, -, hrest⟩
    · cases (visit_ok hv).1
    · rw [hk] at hcall
      cases hcall
    · exact ih (fun y hy => hpre y (List.mem_cons_of_mem _ hy)) hrest

/-- The walk of a thread is finished: its points are run, and what they lead to is among them. -/
structure Walked (prog : Program) (r : Reachability) (ts : Threads) (mayAlias : AliasOracle)
    (t : ThreadId) (points : List Point) (own : Ownership) : Prop where
  first : prog.firstPoint (ts.get t).proc ∈ points
  ran : ∀ p ∈ points, ∃ a ops out next u u', p.ops? prog = some ops ∧
    Walk.runBlock prog (processor prog r ts mayAlias t) (prog.block p.block) a [] ops u =
      .ok (out, next) u' ∧ u'.Grows own ∧ ∀ q ∈ next, q ∈ points

theorem Walked.grows {points : List Point} {own own' : Ownership}
    (h : Walked prog r ts mayAlias t points own) (hg : own.Grows own') :
    Walked prog r ts mayAlias t points own' where
  first := h.first
  ran p hp := by
    obtain ⟨a, ops, out, next, u, u', ho, hrun, hu, hn⟩ := h.ran p hp
    exact ⟨a, ops, out, next, u, u', ho, hrun, hu.trans hg, hn⟩

def Met (prog : Program) (points : List Point) (o : OpId) : Prop :=
  ∃ p ∈ points, ∃ pre post, p.ops? prog = some (pre ++ o :: post) ∧ ∀ x ∈ pre, Stays prog x

theorem met_of_point {points : List Point} {p : Point} {o : OpId} {rest : List OpId}
    (hp : p ∈ points) (ho : p.ops? prog = some (o :: rest)) : Met prog points o :=
  ⟨p, hp, [], rest, ho, by simp⟩

theorem Met.ran {points : List Point} {own : Ownership} {o : OpId} (h : Met prog points o)
    (hw : Walked prog r ts mayAlias t points own) (hs : prog.Shaped) :
    ∃ next, (∀ q ∈ next, q ∈ points) ∧
      Ran prog r t (prog.block (prog.blockOf o)) next own o := by
  obtain ⟨p, hp, pre, post, hops, hpre⟩ := h
  obtain ⟨a, ops, out, next, u, u', ho, hrun, hg, hn⟩ := hw.ran p hp
  obtain rfl : pre ++ o :: post = ops := Option.some.inj (hops.symm.trans ho)
  have hsuffix : o :: post <:+ (prog.block p.block).ops :=
    (List.suffix_append _ _).trans (ops?_suffix hops)
  rw [(hs.mem_ops.mp (hsuffix.subset List.mem_cons_self)).2]
  have hran := runBlock_ran hpre (hs.terminator_last hsuffix) hrun
  refine ⟨next, hn, hg.owner o t hran.owner, fun f hf => ?_, hran.branch⟩
  obtain ⟨hsite, hrest⟩ := hran.call f hf
  exact ⟨hg.sites f _ hsite, hrest⟩

theorem Met.advance {points : List Point} {own : Ownership} {o o' : OpId} (h : Met prog points o)
    (hw : Walked prog r ts mayAlias t points own) (hs : prog.Shaped)
    (ha : prog.Advance (fun f => r.mayReturn f = true) o o') : Met prog points o' := by
  obtain ⟨next, hnext, hran⟩ := h.ran hw hs
  cases ha with
  | next hterm hcall hf =>
    obtain ⟨p, hp, pre, post, hops, hpre⟩ := h
    have hsuffix : o :: post <:+ (prog.block p.block).ops :=
      (List.suffix_append _ _).trans (ops?_suffix hops)
    obtain ⟨-, rest, rfl⟩ := hs.suffix_follows hsuffix hf
    refine ⟨p, hp, pre ++ [o], rest, by simpa using hops, ?_⟩
    intro x hx
    rcases List.mem_append.mp hx with hx | hx
    · exact hpre x hx
    · rw [List.mem_singleton.mp hx]
      exact ⟨hterm, hcall⟩
  | enter hcall he =>
    obtain ⟨rest, hops⟩ := ops?_entry he
    exact met_of_point (hnext _ (hran.call _ hcall).2.1) hops
  | resume hcall hret hf =>
    obtain ⟨rest, hops⟩ := ops?_of_opAt? hf
    exact met_of_point (hnext _ ((hran.call _ hcall).2.2 hret)) hops
  | branch hk hsucc ho =>
    obtain ⟨rest, hops⟩ := ops?_of_opAt? ho
    exact met_of_point (hnext _ (hran.branch hk _ hsucc)) hops

theorem addThread_cases {own own' : Ownership}
    (h : addThread prog r ts mayAlias own t = .ok own') :
    ∃ w, prog.walk (processor prog r ts mayAlias t) (prog.firstPoint (ts.get t).proc) .pre
      { state := own } = .ok () w ∧ own' = w.state := by
  unfold addThread at h
  split at h
  · next w hw =>
    cases h
    exact ⟨w, hw, rfl⟩
  · cases h

theorem addThread_ok {own own' : Ownership}
    (h : addThread prog r ts mayAlias own t = .ok own') :
    own.Grows own' ∧ ∃ points, Walked prog r ts mayAlias t points own' := by
  obtain ⟨w, hw, rfl⟩ := addThread_cases h
  obtain ⟨-, hg, hfirst, hran⟩ := Walk.walk_covers processor_respects rfl hw
  refine ⟨hg, w.visited, hfirst.1, fun p hp => ?_⟩
  obtain ⟨a, ops, out, next, u, u', -, ho, hrun, hu, hn⟩ := hran p hp
  exact ⟨a, ops, out, next, u, u', ho, hrun, hu, fun q hq => (hn q hq).1⟩

theorem addThreads_keep {P : Ownership → Prop} {l : List ThreadId}
    (hP : ∀ t ∈ l, ∀ own own', P own → addThread prog r ts mayAlias own t = .ok own' → P own')
    {own own' : Ownership} (h : addThreads prog r ts mayAlias own l = .ok own') (hown : P own) :
    P own' := by
  induction l generalizing own with
  | nil =>
    cases h
    exact hown
  | cons t l ih =>
    obtain ⟨ht, hl⟩ := List.forall_mem_cons.mp hP
    obtain ⟨own₁, h₁, h⟩ := Checked.bind_ok.mp h
    exact ih hl h (ht own own₁ hown h₁)

theorem addThreads_ok {l : List ThreadId} {own own' : Ownership}
    (h : addThreads prog r ts mayAlias own l = .ok own') :
    own.Grows own' ∧ ∀ t ∈ l, ∃ points, Walked prog r ts mayAlias t points own' := by
  induction l generalizing own with
  | nil =>
    cases h
    exact ⟨.refl _, by simp⟩
  | cons t l ih =>
    obtain ⟨own₁, h₁, h⟩ := Checked.bind_ok.mp h
    obtain ⟨hg₁, points, hw⟩ := addThread_ok h₁
    obtain ⟨hg, hall⟩ := ih h
    exact ⟨hg₁.trans hg, List.forall_mem_cons.mpr ⟨⟨points, hw.grows hg⟩, hall⟩⟩

theorem addThreads_of_ownership {own : Ownership}
    (h : (prog.ownership r ts mayAlias).result = .ok own) :
    addThreads prog r ts mayAlias {} ts.ids = .ok own := by
  simp only [Program.ownership, Traced.result_bind] at h
  obtain ⟨own₁, h₁, h⟩ := Checked.bind_ok.mp h
  obtain ⟨-, -, h⟩ := Checked.bind_ok.mp h
  obtain ⟨options, -, h⟩ := Checked.bind_ok.mp h
  obtain ⟨value, -, h⟩ := Checked.bind_ok.mp h
  obtain ⟨target, -, h⟩ := Checked.bind_ok.mp h
  split at h
  all_goals
    cases h
    exact h₁

/-- A thread owns every operation that it comes to from its first point, and the points after its
calls are return sites. -/
theorem owns_code {own : Ownership} (hs : prog.Shaped)
    (h : (prog.ownership r ts mayAlias).result = .ok own) (ht : t ∈ ts.ids) {first o : OpId}
    (hfirst : (prog.firstPoint (ts.get t).proc).op? prog = some first)
    (ho : Relation.ReflTransGen (prog.Advance fun f => r.mayReturn f = true) first o) :
    own.owner? o = some t ∧
      ∀ f, (prog.kind o).callee? = some f → prog.pointAfter o ∈ own.sites f := by
  obtain ⟨points, hw⟩ := (addThreads_ok (addThreads_of_ownership h)).2 t ht
  have hmet : Met prog points o := by
    induction ho with
    | refl =>
      obtain ⟨rest, hops⟩ := ops?_of_opAt? hfirst
      exact met_of_point hw.first hops
    | tail _ ha ih => exact ih.advance hw hs ha
  obtain ⟨next, -, hran⟩ := hmet.ran hw hs
  exact ⟨hran.owner, fun f hf => (hran.call f hf).1⟩

end Ownership

end YieldPlan
