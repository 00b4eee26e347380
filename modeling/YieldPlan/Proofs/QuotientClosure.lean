import YieldPlan.Graph.Quotient
import YieldPlan.Proofs.SizedMatrix
import Mathlib.Logic.Relation
import Mathlib.Data.Fintype.Card

/-! A quotient is exact for a step relation if it answers every question about its elements as paths
of steps do. It stays exact when a node is added whose links are the ways out of its members: every
member has to lead to every way out, and every link has to enter its target where it leads to all of
the target's members. -/

namespace YieldPlan

namespace BitMatrix

structure Square (m : BitMatrix) (n : Nat) : Prop where
  rows : m.rows.size = n
  cols : m.cols = n
  row : ∀ (r : Nat) (v : BitVector), m.rows[r]? = some v → v.bits.size = n

variable {m : BitMatrix} {n : Nat}

theorem Square.sized (h : m.Square n) : m.Sized n n := ⟨h.rows, h.cols, h.row⟩

theorem Sized.square (h : m.Sized n n) : m.Square n := ⟨h.height, h.width, h.row⟩

theorem Square.set_ok (h : m.Square n) {r c : Nat} (hr : r < n) (hc : c < n) :
    ∃ m', m.set r c = .ok m' ∧ m'.Square n ∧
      ∀ r' c', m'.bit r' c' = true ↔ m.bit r' c' = true ∨ r' = r ∧ c' = c := by
  obtain ⟨m', hm', hsized, hbit⟩ := h.sized.set_ok hr hc
  exact ⟨m', hm', hsized.square, hbit⟩

theorem Square.unite_ok (h : m.Square n) {dst src : Nat} (hd : dst < n) (hs : src < n) :
    ∃ m', m.unite dst src = .ok m' ∧ m'.Square n ∧
      ∀ r c, m'.bit r c = true ↔ m.bit r c = true ∨ r = dst ∧ m.bit src c = true := by
  obtain ⟨m', hm', hsized, hbit⟩ := h.sized.unite_ok (.inr ⟨hd, hs⟩)
  exact ⟨m', hm', hsized.square, hbit⟩

theorem Square.ensure_ok (h : m.Square n) (hmax : n + 1 ≤ maxRows) :
    ∃ m', m.ensure (n + 1) (n + 1) = .ok m' ∧ m'.Square (n + 1) ∧
      ∀ r c, m'.bit r c = m.bit r c := by
  have hfits : Storable (n + 1) (n + 1) := ⟨hmax, .inr (Nat.le_trans hmax (by decide))⟩
  obtain ⟨m', hm', hsized, hbit⟩ := h.sized.ensure_ok (Nat.le_succ n) (Nat.le_succ n) hfits
  exact ⟨m', hm', hsized.square, hbit⟩

end BitMatrix

namespace Quotient

structure Ready (bound : Nat) (g : Quotient) : Prop where
  square : g.rows.Square g.nodes.size
  locked : ∀ n < g.nodes.size, ∃ node, g.nodes[n]? = some node ∧ node.locked = true
  home_lt : ∀ {e n}, g.nodeOf? e = some n → n < g.nodes.size
  member : ∀ n < g.nodes.size, ∃ e < bound, g.nodeOf? e = some n

theorem ready_empty (bound : Nat) : Ready bound {} where
  square := ⟨rfl, rfl, by simp⟩
  locked n h := by simp at h
  home_lt h := by simp [nodeOf?, Table.get?] at h
  member n h := by simp at h

theorem Ready.size_lt {bound : Nat} {g : Quotient} (h : g.Ready bound) {e : Nat} (he : e < bound)
    (hnew : g.nodeOf? e = none) : g.nodes.size < bound := by
  choose f hf hhome using h.member
  -- Give every node a member of its own, and one more place to `e`.
  let place : Fin (g.nodes.size + 1) → Fin bound := fun n =>
    if hn : n < g.nodes.size then ⟨f n hn, hf n hn⟩ else ⟨e, he⟩
  have hinj : Function.Injective place := by
    intro a b hab
    simp only [place] at hab
    have hne : ∀ n (hn : n < g.nodes.size), f n hn ≠ e := by
      rintro n hn rfl
      rw [hhome n hn] at hnew
      cases hnew
    split at hab <;> split at hab
    · next ha hb =>
      have hh := congrArg g.nodeOf? (congrArg Fin.val hab)
      simp only [hhome] at hh
      exact Fin.ext (Option.some.inj hh)
    · next ha hb => exact absurd (congrArg Fin.val hab) (hne _ ha)
    · next ha hb => exact absurd (congrArg Fin.val hab).symm (hne _ hb)
    · next ha hb => exact Fin.ext (by omega)
  have hcard := Fintype.card_le_of_injective place hinj
  rwa [Fintype.card_fin, Fintype.card_fin] at hcard

/-- `g` is `g₀` with one more node. The node has the members `ms` and is linked to `ts`. -/
structure Grown (g₀ : Quotient) (loop locked : Bool) (ms : List Nat) (ts : List NodeId)
    (g : Quotient) : Prop where
  square : g.rows.Square (g₀.nodes.size + 1)
  size : g.nodes.size = g₀.nodes.size + 1
  old : ∀ n < g₀.nodes.size, g.nodes[n]? = g₀.nodes[n]?
  new : ∃ node, g.nodes[g₀.nodes.size]? = some node ∧ node.nonTrivial = loop ∧ node.locked = locked
  home : ∀ e, g.nodeOf? e = if e ∈ ms then some g₀.nodes.size else g₀.nodeOf? e
  bit_old : ∀ n < g₀.nodes.size, ∀ m, g.rows.bit n m = g₀.rows.bit n m
  bit_new : ∀ m, g.rows.bit g₀.nodes.size m = true ↔
    loop = true ∧ m = g₀.nodes.size ∨ ∃ t ∈ ts, m = t ∨ g₀.rows.bit t m = true

variable {g₀ g : Quotient} {bound : Nat} {loop : Bool} {ms : List Nat} {ts : List NodeId}

theorem create_ok (h : g₀.Ready bound) (loop : Bool) {e : Nat} (he : e < bound)
    (hnew : g₀.nodeOf? e = none) (hmax : bound ≤ BitMatrix.maxRows) :
    ∃ g, g₀.create loop = .ok (g, g₀.nodes.size) ∧ Grown g₀ loop false [] [] g := by
  have hlt := h.size_lt he hnew
  obtain ⟨rows, hrows, hsq, hbit⟩ := h.square.ensure_ok (Nat.le_trans hlt hmax)
  have hfresh : ∀ m, rows.bit g₀.nodes.size m = false := by
    intro m
    rw [hbit]
    simp [BitMatrix.bit, Array.getElem?_eq_none (Nat.le_of_eq h.square.rows)]
  have hgrown : ∀ rows' : BitMatrix, rows'.Square (g₀.nodes.size + 1) →
      (∀ r c, rows'.bit r c = true ↔ rows.bit r c = true ∨
        loop = true ∧ r = g₀.nodes.size ∧ c = g₀.nodes.size) →
      Grown g₀ loop false [] []
        { g₀ with nodes := g₀.nodes.push { nonTrivial := loop }, rows := rows' } := by
    intro rows' hsq' hbit'
    refine ⟨hsq', by simp, fun n hn => ?_, ⟨_, Array.getElem?_push_size, rfl, rfl⟩, fun e => ?_,
      fun n hn m => ?_, fun m => ?_⟩
    · rw [Array.getElem?_push_lt hn, Array.getElem?_eq_getElem hn]
    · simp [nodeOf?]
    · rw [Bool.eq_iff_iff, hbit', hbit]
      exact or_iff_left fun hc => absurd hc.2.1 (Nat.ne_of_lt hn)
    · rw [hbit', hfresh]
      simp
  rw [create, hrows]
  cases loop with
  | false =>
    exact ⟨_, rfl, hgrown rows hsq (by simp)⟩
  | true =>
    obtain ⟨rows', hset, hsq', hbit'⟩ := hsq.set_ok (Nat.lt_succ_self _) (Nat.lt_succ_self _)
    refine ⟨_, ?_, hgrown rows' hsq' fun r c => by rw [hbit']; simp⟩
    rw [Checked.ok_bind, if_pos rfl, hset]
    rfl

theorem Grown.addMember (h : Grown g₀ loop false ms ts g) (label : Nat → String) {e : Nat}
    (he : e ∉ ms) (hnew : g₀.nodeOf? e = none) :
    ∃ g', g.addMember label g₀.nodes.size e = (g', .ok ()) ∧
      Grown g₀ loop false (ms ++ [e]) ts g' := by
  obtain ⟨node, hnode, hloop, hlocked⟩ := h.new
  have hlt : g₀.nodes.size < g.nodes.size := h.size.symm ▸ Nat.lt_succ_self _
  have hhome : g.home.get? e = none := by
    have := h.home e
    rwa [if_neg he, hnew] at this
  refine ⟨{ g with
      home := g.home.put e g₀.nodes.size
      nodes := g.nodes.setIfInBounds g₀.nodes.size { node with members := node.members ++ [e] } },
    by simp only [Quotient.addMember, hhome, hnode], ?_⟩
  refine ⟨h.square, by simpa using h.size, fun n hn => ?_, ?_, fun x => ?_, h.bit_old, h.bit_new⟩
  · rw [Array.getElem?_setIfInBounds, if_neg (Nat.ne_of_gt hn)]
    exact h.old n hn
  · exact ⟨{ node with members := node.members ++ [e] }, by simp [hlt], hloop, hlocked⟩
  · have hx := h.home x
    simp only [nodeOf?, Table.get?_put, List.mem_append, List.mem_singleton] at hx ⊢
    by_cases hxe : x = e
    · simp [hxe]
    · simp [hxe, hx]

theorem Grown.modify (h : Grown g₀ loop false ms ts g) {f : QuotientNode → QuotientNode}
    {locked : Bool} (hf : ∀ node, (f node).nonTrivial = node.nonTrivial)
    (hl : ∀ node, node.locked = false → (f node).locked = locked) :
    ∃ g', g.modify g₀.nodes.size f = .ok g' ∧ Grown g₀ loop locked ms ts g' := by
  obtain ⟨node, hnode, hloop, hlocked⟩ := h.new
  have hlt : g₀.nodes.size < g.nodes.size := h.size.symm ▸ Nat.lt_succ_self _
  refine ⟨{ g with nodes := g.nodes.setIfInBounds g₀.nodes.size (f node) }, ?_, ?_⟩
  · rw [Quotient.modify, Quotient.node, hnode]
    rfl
  · refine ⟨h.square, by simpa using h.size, fun n hn => ?_, ?_, h.home, h.bit_old, h.bit_new⟩
    · rw [Array.getElem?_setIfInBounds, if_neg (Nat.ne_of_gt hn)]
      exact h.old n hn
    · exact ⟨f node, by simp [hlt], (hf node).trans hloop, hl node hlocked⟩

theorem Grown.setParent (h : Grown g₀ loop false ms ts g) (parent : NodeId) :
    ∃ g', g.setParent g₀.nodes.size parent = .ok g' ∧ Grown g₀ loop false ms ts g' :=
  h.modify (fun _ => rfl) fun _ hl => hl

theorem Grown.lock (h : Grown g₀ loop false ms ts g) :
    ∃ g', g.lock g₀.nodes.size = .ok g' ∧ Grown g₀ loop true ms ts g' :=
  h.modify (fun _ => rfl) fun _ _ => rfl

theorem Grown.link (h : Grown g₀ loop false ms ts g) (hr : g₀.Ready bound) {t : NodeId}
    (ht : t < g₀.nodes.size) :
    ∃ g', g.link g₀.nodes.size t = .ok g' ∧ Grown g₀ loop false ms (ts ++ [t]) g' := by
  obtain ⟨node, hnode, hloop, hlocked⟩ := h.new
  obtain ⟨target, htarget, htl⟩ := hr.locked t ht
  have hne : g₀.nodes.size ≠ t := Nat.ne_of_gt ht
  have hlt := Nat.lt_succ_self g₀.nodes.size
  obtain ⟨rows, hset, hsq, hbit⟩ := h.square.set_ok hlt (Nat.lt_succ_of_lt ht)
  obtain ⟨rows', hunite, hsq', hbit'⟩ := hsq.unite_ok hlt (Nat.lt_succ_of_lt ht)
  refine ⟨{ g with rows := rows' }, ?_, hsq', h.size, h.old, h.new, h.home, fun n hn m => ?_,
    fun m => ?_⟩
  · simp only [Quotient.link, if_neg hne, Quotient.node, hnode, h.old t ht, htarget,
      Checked.index_some, Checked.ok_bind, hlocked, htl, hset, hunite]
    rfl
  · rw [Bool.eq_iff_iff, ← h.bit_old n hn, hbit', hbit]
    simp [Nat.ne_of_lt hn]
  · have htm : rows.bit t m = true ↔ g₀.rows.bit t m = true := by
      rw [hbit, h.bit_old t ht]
      exact or_iff_left fun hc => hne hc.1.symm
    rw [hbit', hbit, h.bit_new, htm]
    simp only [true_and, List.mem_append, List.mem_singleton, or_and_right, exists_or,
      exists_eq_left, or_assoc]

def Loops (g : Quotient) (n : NodeId) : Prop := ∃ node, g.nodes[n]? = some node ∧ node.nonTrivial = true

theorem Ready.node_ok (h : g.Ready bound) {n : NodeId} (hn : n < g.nodes.size) :
    ∃ node, g.node n = .ok node ∧ node.locked = true ∧ (node.nonTrivial = true ↔ g.Loops n) := by
  obtain ⟨node, hnode, hlocked⟩ := h.locked n hn
  refine ⟨node, by rw [Quotient.node, hnode]; rfl, hlocked, fun hl => ⟨node, hnode, hl⟩, ?_⟩
  rintro ⟨node', hnode', hl⟩
  rw [hnode] at hnode'
  cases hnode'
  exact hl

theorem Ready.reaches_ok (h : g.Ready bound) {n m : NodeId} (hn : n < g.nodes.size)
    (hm : m < g.nodes.size) : g.reaches n m = .ok (g.rows.bit n m) := by
  obtain ⟨node, hnode, hlocked, -⟩ := h.node_ok hn
  rw [reaches, hnode, Checked.ok_bind, if_pos hlocked]
  exact h.square.sized.get_ok hn hm

/-- The graph answers as paths of steps do. Inside a node that does not loop, the answer is the order
of the elements. -/
structure Exact (g : Quotient) (Step before : Nat → Nat → Prop) : Prop where
  closed : ∀ {a b n}, g.nodeOf? a = some n → Step a b → ∃ m, g.nodeOf? b = some m
  same : ∀ {a b n}, g.nodeOf? a = some n → g.nodeOf? b = some n →
    (g.Loops n ∨ before a b ↔ Relation.TransGen Step a b)
  apart : ∀ {a b n m}, g.nodeOf? a = some n → g.nodeOf? b = some m → n ≠ m →
    (g.rows.bit n m = true ↔ Relation.TransGen Step a b)

variable {Step before : Nat → Nat → Prop}

theorem exact_empty : Exact {} Step before where
  closed h := by simp [nodeOf?, Table.get?] at h
  same h := by simp [nodeOf?, Table.get?] at h
  apart h := by simp [nodeOf?, Table.get?] at h

theorem Exact.closed_path (h : g.Exact Step before) {a b : Nat} {n : NodeId}
    (ha : g.nodeOf? a = some n) (hab : Relation.TransGen Step a b) :
    ∃ m, g.nodeOf? b = some m := by
  induction hab with
  | single hs => exact h.closed ha hs
  | tail _ hs ih =>
    obtain ⟨m, hm⟩ := ih
    exact h.closed hm hs

theorem exists_exit {S : Nat → Prop} {a b : Nat} (h : Relation.ReflTransGen Step a b) (ha : S a)
    (hb : ¬ S b) : ∃ x y, S x ∧ ¬ S y ∧ Step x y ∧ Relation.ReflTransGen Step y b := by
  induction h using Relation.ReflTransGen.head_induction_on with
  | refl => exact absurd ha hb
  | @head x y hxy hyb ih =>
    by_cases hy : S y
    · exact ih hy
    · exact ⟨x, y, ha, hy, hxy, hyb⟩

/-- Where the new node leads: each link enters its target where it leads to all of it, from a member
that every other member leads to. -/
structure Leaves (g₀ : Quotient) (Step : Nat → Nat → Prop) (ms : List Nat) (ts : List NodeId) :
    Prop where
  out : ∀ a ∈ ms, ∀ b, Step a b → b ∈ ms ∨ ∃ t ∈ ts, g₀.nodeOf? b = some t
  link : ∀ t ∈ ts, ∃ x ∈ ms, ∃ y, Step x y ∧ g₀.nodeOf? y = some t ∧
    (∀ a ∈ ms, Relation.ReflTransGen Step a x) ∧
    ∀ b, g₀.nodeOf? b = some t → Relation.ReflTransGen Step y b

theorem Grown.home_new (h : Grown g₀ loop true ms ts g) (hr : g₀.Ready bound) {e : Nat} :
    g.nodeOf? e = some g₀.nodes.size ↔ e ∈ ms := by
  rw [h.home]
  split
  · next he => exact iff_of_true rfl he
  · next he => exact iff_of_false (fun hc => Nat.lt_irrefl _ (hr.home_lt hc)) he

theorem Grown.home_old (h : Grown g₀ loop true ms ts g) {e : Nat} {n : NodeId} (he : e ∉ ms)
    (hn : g.nodeOf? e = some n) : g₀.nodeOf? e = some n := by
  rwa [h.home, if_neg he] at hn

theorem Grown.loops_new (h : Grown g₀ loop true ms ts g) :
    g.Loops g₀.nodes.size ↔ loop = true := by
  obtain ⟨node, hnode, hloop, -⟩ := h.new
  constructor
  · rintro ⟨node', hnode', hl⟩
    rw [hnode] at hnode'
    cases hnode'
    exact hloop.symm.trans hl
  · exact fun hl => ⟨node, hnode, hloop.trans hl⟩

theorem Grown.ready (h : Grown g₀ loop true ms ts g) (hr : g₀.Ready bound) {e : Nat}
    (he : e ∈ ms) (hlt : e < bound) (hnew : ∀ x ∈ ms, g₀.nodeOf? x = none) : g.Ready bound where
  square := h.size.symm ▸ h.square
  locked n hn := by
    rw [h.size, Nat.lt_succ_iff_lt_or_eq] at hn
    rcases hn with hn | rfl
    · rw [h.old n hn]
      exact hr.locked n hn
    · obtain ⟨node, hnode, -, hl⟩ := h.new
      exact ⟨node, hnode, hl⟩
  home_lt := by
    intro x n hx
    rw [h.size]
    by_cases hm : x ∈ ms
    · rw [(h.home_new hr).mpr hm] at hx
      cases hx
      exact Nat.lt_succ_self _
    · exact Nat.lt_succ_of_lt (hr.home_lt (h.home_old hm hx))
  member n hn := by
    rw [h.size, Nat.lt_succ_iff_lt_or_eq] at hn
    rcases hn with hn | rfl
    · obtain ⟨x, hx, hxn⟩ := hr.member n hn
      refine ⟨x, hx, ?_⟩
      rw [h.home, if_neg fun hm => ?_]
      · exact hxn
      · rw [hnew x hm] at hxn
        cases hxn
    · exact ⟨e, hlt, (h.home_new hr).mpr he⟩

theorem Leaves.apart (hl : Leaves g₀ Step ms ts) (he : g₀.Exact Step before) {a b : Nat}
    {m : NodeId} (ha : a ∈ ms) (hb : b ∉ ms) (hm : g₀.nodeOf? b = some m) :
    (∃ t ∈ ts, m = t ∨ g₀.rows.bit t m = true) ↔ Relation.TransGen Step a b := by
  constructor
  · rintro ⟨t, ht, hmt⟩
    obtain ⟨x, hx, y, hxy, hy, hreach, hall⟩ := hl.link t ht
    have hay : Relation.TransGen Step a y := .tail' (hreach a ha) hxy
    by_cases htm : t = m
    · exact hay.trans_left (hall b (htm ▸ hm))
    · exact hay.trans ((he.apart hy hm htm).mp (hmt.resolve_left (Ne.symm htm)))
  · intro hab
    obtain ⟨x, y, hx, hy, hxy, hyb⟩ := exists_exit (S := (· ∈ ms)) hab.to_reflTransGen ha hb
    obtain ⟨t, ht, hyt⟩ := (hl.out x hx y hxy).resolve_left hy
    refine ⟨t, ht, ?_⟩
    by_cases htm : t = m
    · exact .inl htm.symm
    · refine .inr ((he.apart hyt hm htm).mpr ?_)
      refine (Relation.reflTransGen_iff_eq_or_transGen.mp hyb).resolve_left ?_
      rintro rfl
      exact htm (Option.some.inj (hyt.symm.trans hm))

/-- The graph with one more node is exact if it is so among the members of the node, and the links
of the node are the ways out of it. -/
theorem Exact.grow (he : g₀.Exact Step before) (hr : g₀.Ready bound)
    (hg : Grown g₀ loop true ms ts g) (hnew : ∀ e ∈ ms, g₀.nodeOf? e = none)
    (hinner : ∀ a ∈ ms, ∀ b ∈ ms, (loop = true ∨ before a b ↔ Relation.TransGen Step a b))
    (hl : Leaves g₀ Step ms ts) : g.Exact Step before where
  closed := by
    intro a b n ha hab
    have hold : ∀ {m}, g₀.nodeOf? b = some m → ∃ m, g.nodeOf? b = some m := by
      intro m hm
      rw [hg.home]
      split
      · exact ⟨_, rfl⟩
      · exact ⟨m, hm⟩
    by_cases hm : a ∈ ms
    · rcases hl.out a hm b hab with hb | ⟨t, -, hb⟩
      · exact ⟨_, (hg.home_new hr).mpr hb⟩
      · exact hold hb
    · obtain ⟨m, hm⟩ := he.closed (hg.home_old hm ha) hab
      exact hold hm
  same := by
    intro a b n ha hb
    by_cases hn : n = g₀.nodes.size
    · subst hn
      rw [hg.loops_new]
      exact hinner a ((hg.home_new hr).mp ha) b ((hg.home_new hr).mp hb)
    · have hout : ∀ {e}, g.nodeOf? e = some n → g₀.nodeOf? e = some n := by
        intro e hen
        refine hg.home_old (fun hm => hn ?_) hen
        rw [(hg.home_new hr).mpr hm] at hen
        exact (Option.some.inj hen).symm
      have := he.same (hout ha) (hout hb)
      rwa [Loops, ← hg.old n (hr.home_lt (hout ha))] at this
  apart := by
    intro a b n m ha hb hnm
    by_cases hma : a ∈ ms
    · obtain rfl : g₀.nodes.size = n := Option.some.inj (((hg.home_new hr).mpr hma).symm.trans ha)
      have hmb : b ∉ ms := fun hmb =>
        hnm (Option.some.inj (((hg.home_new hr).mpr hmb).symm.trans hb))
      rw [hg.bit_new, ← hl.apart he hma hmb (hg.home_old hmb hb)]
      exact or_iff_right fun hc => hnm hc.2.symm
    · have han := hg.home_old hma ha
      rw [hg.bit_old n (hr.home_lt han)]
      by_cases hmb : b ∈ ms
      · obtain rfl : g₀.nodes.size = m := Option.some.inj (((hg.home_new hr).mpr hmb).symm.trans hb)
        rw [hr.square.sized.bit_of_le (Nat.le_refl _)]
        refine iff_of_false (by simp) fun hab => ?_
        obtain ⟨k, hk⟩ := he.closed_path han hab
        rw [hnew b hmb] at hk
        cases hk
      · exact he.apart han (hg.home_old hmb hb) hnm

/-- A graph under construction that is exact for the elements done so far. Elements of a node that
does not loop are `same`. -/
structure Stage (bound : Nat) (Step before same : Nat → Nat → Prop) (done : Nat → Prop)
    (g : Quotient) : Prop where
  ready : g.Ready bound
  exact : g.Exact Step before
  home : ∀ e, (∃ n, g.nodeOf? e = some n) ↔ done e
  lt : ∀ e, done e → e < bound
  thin : ∀ {a b n}, g.nodeOf? a = some n → g.nodeOf? b = some n → g.Loops n ∨ same a b

variable {same : Nat → Nat → Prop} {done : Nat → Prop}

theorem Stage.congr (h : Stage bound Step before same done g₀) {done' : Nat → Prop}
    (hd : ∀ e, done e ↔ done' e) : Stage bound Step before same done' g₀ :=
  ⟨h.ready, h.exact, fun e => (h.home e).trans (hd e), fun e he => h.lt e ((hd e).mpr he), h.thin⟩

theorem Stage.fresh (h : Stage bound Step before same done g₀) {e : Nat} (he : ¬ done e) :
    g₀.nodeOf? e = none := by
  cases hn : g₀.nodeOf? e with
  | none => rfl
  | some n => exact absurd ((h.home e).mp ⟨n, hn⟩) he

theorem Stage.enters (h : Stage bound Step before same done g₀) {a b : Nat} {n : NodeId}
    (ha : g₀.nodeOf? a = some n) (hb : g₀.nodeOf? b = some n)
    (hfirst : same a b → a = b ∨ before a b) : Relation.ReflTransGen Step a b := by
  rcases h.thin ha hb with hloop | hsame
  · exact ((h.exact.same ha hb).mp (.inl hloop)).to_reflTransGen
  · rcases hfirst hsame with rfl | hlt
    · exact .refl
    · exact ((h.exact.same ha hb).mp (.inr hlt)).to_reflTransGen

theorem Stage.grow (h : Stage bound Step before same done g₀) (hg : Grown g₀ loop true ms ts g)
    (hne : ms ≠ []) (hlt : ∀ e ∈ ms, e < bound) (hnew : ∀ e ∈ ms, ¬ done e)
    (hsame : ∀ a ∈ ms, ∀ b ∈ ms, loop = true ∨ same a b)
    (hinner : ∀ a ∈ ms, ∀ b ∈ ms, (loop = true ∨ before a b ↔ Relation.TransGen Step a b))
    (hl : Leaves g₀ Step ms ts) : Stage bound Step before same (fun e => done e ∨ e ∈ ms) g := by
  have hfresh : ∀ e ∈ ms, g₀.nodeOf? e = none := fun e he => h.fresh (hnew e he)
  obtain ⟨e, he⟩ := List.exists_mem_of_ne_nil ms hne
  refine ⟨hg.ready h.ready he (hlt e he) hfresh, h.exact.grow h.ready hg hfresh hinner hl, ?_, ?_, ?_⟩
  · intro x
    rw [hg.home, ← h.home]
    by_cases hx : x ∈ ms <;> simp [hx]
  · exact fun x hx => hx.elim (h.lt x) (hlt x)
  · intro a b n ha hb
    by_cases hma : a ∈ ms
    · obtain rfl : g₀.nodes.size = n :=
        Option.some.inj (((hg.home_new h.ready).mpr hma).symm.trans ha)
      rw [hg.loops_new]
      exact hsame a hma b ((hg.home_new h.ready).mp hb)
    · have han := hg.home_old hma ha
      have hmb : b ∉ ms := fun hmb => by
        rw [(hg.home_new h.ready).mpr hmb] at hb
        exact absurd (Option.some.inj hb) (Nat.ne_of_gt (h.ready.home_lt han))
      rw [Loops, hg.old n (h.ready.home_lt han)]
      exact h.thin han (hg.home_old hmb hb)

end Quotient

end YieldPlan
