import YieldPlan.Proofs.QuotientClosure

/-! Any sequence of changes is allowed, and any of them may fail. The edges are the links that
succeeded between two nodes, and one loop for every node that was created as a component of its own.
A link unites with a row that is final, because its target is locked, and no row has united with the
row of its source yet, because its source is not. So the rows are closed after every change. -/

namespace YieldPlan

open Relation (TransGen)

section Paths

variable {V : Type} {E : V → V → Prop} {s t : V}

theorem eq_of_reaches_source (hs : ∀ x, E x s → x = s) {a : V} (h : TransGen E a s) : a = s := by
  induction h using TransGen.head_induction_on with
  | single hE => exact hs _ hE
  | head hE _ ih => exact hs _ (ih ▸ hE)

theorem reaches_with_edge (hs : ∀ x, E x s → x = s) (a b : V) :
    TransGen (fun x y => E x y ∨ x = s ∧ y = t) a b ↔
      TransGen E a b ∨ a = s ∧ (b = t ∨ TransGen E t b) := by
  constructor
  · intro h
    induction h with
    | single hE => exact hE.imp .single fun ⟨ha, hb⟩ => ⟨ha, .inl hb⟩
    | tail _ hE ih =>
      rcases hE with hE | ⟨rfl, rfl⟩
      · refine ih.imp (·.tail hE) fun ⟨ha, hm⟩ => ⟨ha, .inr ?_⟩
        exact hm.elim (fun hm => .single (hm ▸ hE)) (·.tail hE)
      · exact .inr ⟨ih.elim (eq_of_reaches_source hs) And.left, .inl rfl⟩
  · have hold : ∀ {x y}, TransGen E x y → TransGen (fun x y => E x y ∨ x = s ∧ y = t) x y :=
      fun h => h.lift id fun _ _ => .inl
    rintro (h | ⟨rfl, rfl | h⟩)
    · exact hold h
    · exact .single (.inr ⟨rfl, rfl⟩)
    · exact .head (.inr ⟨rfl, rfl⟩) (hold h)

end Paths

namespace Quotient

inductive Change where
  | create (nonTrivial : Bool)
  | addMember (node : NodeId) (element : Nat)
  | setParent (node parent : NodeId)
  | link (source target : NodeId)
  | lock (node : NodeId)
  deriving DecidableEq, Repr

/-- A change that fails keeps the graph. -/
def attempt (g : Quotient) : Checked Quotient → Quotient × Checked Unit
  | .ok g' => (g', .ok ())
  | .error e => (g, .error e)

/-- The graph after a change, and the result of the change. -/
def change (label : Nat → String) (g : Quotient) : Change → Quotient × Checked Unit
  | .create nonTrivial => g.attempt ((g.create nonTrivial).map Prod.fst)
  | .addMember node element => g.addMember label node element
  | .setParent node parent => g.attempt (g.setParent node parent)
  | .link source target => g.attempt (g.link source target)
  | .lock node => g.attempt (g.lock node)

def changeAll (label : Nat → String) (g : Quotient) (changes : List Change) : Quotient :=
  changes.foldl (fun g c => (g.change label c).1) g

/-- The edge that a change adds if it succeeds. A link of a node with itself adds none. -/
def Change.edge? (g : Quotient) : Change → Option (NodeId × NodeId)
  | .create true => some (g.size, g.size)
  | .link source target => if source = target then none else some (source, target)
  | _ => none

def edges (label : Nat → String) : Quotient → List Change → List (NodeId × NodeId)
  | _, [] => []
  | g, c :: cs =>
    let rest := edges label (g.change label c).1 cs
    match (g.change label c).2 with
    | .ok () => (c.edge? g).toList ++ rest
    | .error _ => rest

def Locked (g : Quotient) (n : NodeId) : Prop :=
  ∃ node, g.nodes[n]? = some node ∧ node.locked = true

variable {g g' : Quotient} {new : Option (NodeId × NodeId)} {label : Nat → String}

theorem Locked.lt {n : NodeId} (h : g.Locked n) : n < g.nodes.size := by
  obtain ⟨node, hnode, -⟩ := h
  exact (Array.getElem?_eq_some_iff.mp hnode).1

theorem reaches_locked (h : g.rows.Square g.nodes.size) {a b : NodeId} (ha : g.Locked a)
    (hb : b < g.nodes.size) : g.reaches a b = .ok (g.rows.bit a b) := by
  obtain ⟨node, hnode, hlocked⟩ := ha
  have hlt : a < g.nodes.size := (Array.getElem?_eq_some_iff.mp hnode).1
  rw [reaches, Quotient.node, hnode, Checked.index_some, Checked.ok_bind, if_pos hlocked]
  exact h.sized.get_ok hlt hb

structure Adds (g : Quotient) (new : Option (NodeId × NodeId)) (g' : Quotient) : Prop where
  square : g'.rows.Square g'.nodes.size
  size : g.nodes.size ≤ g'.nodes.size
  locked : ∀ n, g.Locked n → g'.Locked n
  bit : ∀ a b, g'.rows.bit a b = true ↔
    g.rows.bit a b = true ∨ ∃ t, new = some (a, t) ∧ (b = t ∨ g.rows.bit t b = true)
  source : ∀ s t, new = some (s, t) → s < g'.nodes.size ∧ ¬ g.Locked s
  target : ∀ s t, new = some (s, t) → t < g'.nodes.size ∧ (s ≠ t → g.Locked t)

theorem Adds.of_rows (h : g.rows.Square g.nodes.size) (hrows : g'.rows = g.rows)
    (hsize : g'.nodes.size = g.nodes.size) (hlocked : ∀ n, g.Locked n → g'.Locked n) :
    Adds g none g' where
  square := by rwa [hrows, hsize]
  size := hsize.ge
  locked := hlocked
  bit a b := by simp [hrows]
  source s t h := by cases h
  target s t h := by cases h

theorem locked_of_update {n : NodeId} {node : QuotientNode} {f : QuotientNode → QuotientNode}
    (hn : g.nodes[n]? = some node) (hf : node.locked = true → (f node).locked = true)
    (hnodes : g'.nodes = g.nodes.setIfInBounds n (f node)) (m : NodeId) (h : g.Locked m) :
    g'.Locked m := by
  obtain ⟨old, hold, hlocked⟩ := h
  by_cases hm : n = m
  · subst hm
    cases hn.symm.trans hold
    have hlt : n < g.nodes.size := (Array.getElem?_eq_some_iff.mp hn).1
    exact ⟨f node, by simp [hnodes, hlt], hf hlocked⟩
  · exact ⟨old, by rw [hnodes, Array.getElem?_setIfInBounds, if_neg hm, hold], hlocked⟩

theorem modify_adds (h : g.rows.Square g.nodes.size) {n : NodeId}
    {f : QuotientNode → QuotientNode} (hf : ∀ node, node.locked = true → (f node).locked = true)
    (hg : g.modify n f = .ok g') : Adds g none g' := by
  rw [modify] at hg
  obtain ⟨node, hnode, hg⟩ := Checked.bind_ok.mp hg
  cases hg
  exact .of_rows h rfl (by simp) (locked_of_update (Checked.index_ok.mp hnode) (hf node) rfl)

theorem addMember_cases (h : g.rows.Square g.nodes.size) (label : Nat → String) (n : NodeId)
    (e : Nat) :
    (∃ x, (g.addMember label n e).2 = .error x ∧ (g.addMember label n e).1.nodes = g.nodes ∧
      (g.addMember label n e).1.rows = g.rows) ∨
    (g.addMember label n e).2 = .ok () ∧ Adds g none (g.addMember label n e).1 := by
  rw [addMember]
  cases g.home.get? e with
  | some first => exact .inl ⟨_, rfl, rfl, rfl⟩
  | none =>
    cases hn : g.nodes[n]? with
    | none => exact .inl ⟨_, rfl, rfl, rfl⟩
    | some node =>
      refine .inr ⟨rfl, .of_rows h rfl (by simp) (locked_of_update (f := fun node =>
        { node with members := node.members ++ [e] }) hn id rfl)⟩

theorem ensure_square {m m' : BitMatrix} {n : Nat} (h : m.Square n)
    (hm : m.ensure (n + 1) (n + 1) = .ok m') :
    m'.Square (n + 1) ∧ ∀ r c, m'.bit r c = m.bit r c := by
  by_cases hmax : n + 1 ≤ BitMatrix.maxRows
  · obtain ⟨m'', hm'', hsq, hbit⟩ := h.ensure_ok hmax
    cases hm.symm.trans hm''
    exact ⟨hsq, hbit⟩
  · rw [BitMatrix.ensure, if_neg (by simp [h.rows, h.cols]), if_pos (Nat.lt_of_not_le hmax)] at hm
    cases hm

theorem create_adds (h : g.rows.Square g.nodes.size) {loop : Bool} {n : NodeId}
    (hg : g.create loop = .ok (g', n)) :
    Adds g ((Change.create loop).edge? g) g' := by
  rw [create] at hg
  obtain ⟨rows, hrows, hg⟩ := Checked.bind_ok.mp hg
  obtain ⟨hsq, hbit⟩ := ensure_square h hrows
  have hlocked : ∀ rows' m, g.Locked m →
      Locked { g with nodes := g.nodes.push { nonTrivial := loop }, rows := rows' } m := by
    rintro rows' m ⟨node, hnode, hl⟩
    have hlt := (Array.getElem?_eq_some_iff.mp hnode).1
    exact ⟨node, by simp [Array.getElem?_push, Nat.ne_of_lt hlt, hnode], hl⟩
  cases loop with
  | false =>
    cases hg
    exact ⟨by simpa using hsq, by simp, hlocked rows, fun a b => by simp [hbit, Change.edge?],
      fun s t h => (by cases h), fun s t h => by cases h⟩
  | true =>
    obtain ⟨rows', hset, hsq', hbit'⟩ := hsq.set_ok (Nat.lt_succ_self _) (Nat.lt_succ_self _)
    rw [if_pos rfl, hset] at hg
    cases hg
    refine ⟨by simpa using hsq', by simp, hlocked rows', fun a b => ?_, ?_, ?_⟩
    · have hfresh : g.rows.bit g.nodes.size b = false := by
        simp [BitMatrix.bit, Array.getElem?_eq_none h.rows.le]
      rw [hbit', hbit]
      simp only [Change.edge?, Option.some.injEq, Prod.mk.injEq, size]
      constructor
      · rintro (hab | ⟨rfl, rfl⟩)
        · exact .inl hab
        · exact .inr ⟨_, ⟨rfl, rfl⟩, .inl rfl⟩
      · rintro (hab | ⟨t, ⟨rfl, rfl⟩, rfl | hab⟩)
        · exact .inl hab
        · exact .inr ⟨rfl, rfl⟩
        · simp [hfresh] at hab
    · rintro s t ⟨⟩
      exact ⟨by simp [size], fun hl => Nat.lt_irrefl _ hl.lt⟩
    · rintro s t ⟨⟩
      exact ⟨by simp [size], fun hne => absurd rfl hne⟩

theorem link_cases (h : g.rows.Square g.nodes.size) {s t : NodeId} (hg : g.link s t = .ok g') :
    s = t ∧ g' = g ∨
    s ≠ t ∧ s < g.nodes.size ∧ ¬ g.Locked s ∧ g.Locked t ∧
      ∃ rows, g' = { g with rows } ∧ rows.Square g.nodes.size ∧
        ∀ a b, rows.bit a b = true ↔
          g.rows.bit a b = true ∨ a = s ∧ (b = t ∨ g.rows.bit t b = true) := by
  rw [link] at hg
  by_cases hst : s = t
  · rw [if_pos hst] at hg
    obtain ⟨node, -, hg⟩ := Checked.bind_ok.mp hg
    split at hg
    · cases hg
      exact .inl ⟨hst, rfl⟩
    · cases hg
  · rw [if_neg hst] at hg
    obtain ⟨source, hsource, hg⟩ := Checked.bind_ok.mp hg
    split at hg
    · cases hg
    · next hopen =>
      obtain ⟨target, htarget, hg⟩ := Checked.bind_ok.mp hg
      split at hg
      · cases hg
      · next hlocked =>
        have hs : g.nodes[s]? = some source := Checked.index_ok.mp hsource
        have ht : g.nodes[t]? = some target := Checked.index_ok.mp htarget
        have hslt : s < g.nodes.size := (Array.getElem?_eq_some_iff.mp hs).1
        have htlt : t < g.nodes.size := (Array.getElem?_eq_some_iff.mp ht).1
        obtain ⟨rows, hset, hsq, hbit⟩ := h.set_ok hslt htlt
        obtain ⟨rows', hunite, hsq', hbit'⟩ := hsq.unite_ok hslt htlt
        rw [hset, Checked.ok_bind, hunite] at hg
        cases hg
        refine .inr ⟨hst, hslt, ?_, ⟨target, ht, by simpa using hlocked⟩, rows', rfl, hsq',
          fun a b => ?_⟩
        · rintro ⟨node, hnode, hl⟩
          cases hs.symm.trans hnode
          exact hopen hl
        · rw [hbit', hbit, hbit]
          simp only [or_assoc, Ne.symm hst, false_and, or_false, and_or_left]

theorem link_adds (h : g.rows.Square g.nodes.size) {s t : NodeId} (hg : g.link s t = .ok g') :
    Adds g ((Change.link s t).edge? g) g' := by
  rcases link_cases h hg with ⟨rfl, rfl⟩ | ⟨hst, hs, hopen, ht, rows, rfl, hsq, hbit⟩
  · rw [Change.edge?, if_pos rfl]
    exact .of_rows h rfl rfl fun _ => id
  · rw [Change.edge?, if_neg hst]
    refine ⟨hsq, Nat.le_refl _, fun _ => id, fun a b => ?_, ?_, ?_⟩
    · rw [hbit]
      simp only [Option.some.injEq, Prod.mk.injEq]
      refine or_congr_right ⟨fun ⟨ha, hb⟩ => ⟨t, ⟨ha.symm, rfl⟩, hb⟩, ?_⟩
      rintro ⟨x, ⟨rfl, rfl⟩, hb⟩
      exact ⟨rfl, hb⟩
    · rintro x y ⟨⟩
      exact ⟨hs, hopen⟩
    · rintro x y ⟨⟩
      exact ⟨ht.lt, fun _ => ht⟩

theorem attempt_cases {r : Checked Quotient} (hr : ∀ g', r = .ok g' → Adds g new g') :
    (∃ x, (g.attempt r).2 = .error x ∧ (g.attempt r).1.nodes = g.nodes ∧
      (g.attempt r).1.rows = g.rows) ∨
    (g.attempt r).2 = .ok () ∧ Adds g new (g.attempt r).1 := by
  cases r with
  | error e => exact .inl ⟨e, rfl, rfl, rfl⟩
  | ok g' => exact .inr ⟨rfl, hr g' rfl⟩

theorem change_cases (h : g.rows.Square g.nodes.size) (label : Nat → String) (c : Change) :
    (∃ x, (g.change label c).2 = .error x ∧ (g.change label c).1.nodes = g.nodes ∧
      (g.change label c).1.rows = g.rows) ∨
    (g.change label c).2 = .ok () ∧ Adds g (c.edge? g) (g.change label c).1 := by
  cases c with
  | create loop =>
    refine attempt_cases fun g' hg => ?_
    cases hcreate : g.create loop with
    | error e => simp [hcreate, Except.map] at hg
    | ok created =>
      obtain rfl : created.1 = g' := by simpa [hcreate, Except.map] using hg
      exact create_adds h hcreate
  | addMember n e => exact addMember_cases h label n e
  | setParent n p =>
    refine attempt_cases fun g' hg => ?_
    exact modify_adds (f := fun node => { node with parent := some p }) h (fun _ hl => hl) hg
  | link s t => exact attempt_cases fun g' hg => link_adds h hg
  | lock n => exact attempt_cases fun g' hg => modify_adds h (fun _ _ => rfl) hg

/-- The rows hold the paths over some edges. An edge between two nodes enters a locked one. -/
structure Closes (g : Quotient) (E : NodeId → NodeId → Prop) : Prop where
  square : g.rows.Square g.nodes.size
  lt : ∀ a b, E a b → a < g.nodes.size ∧ b < g.nodes.size
  locked : ∀ a b, E a b → a ≠ b → g.Locked b
  exact : ∀ a b, g.rows.bit a b = true ↔ TransGen E a b

variable {E : NodeId → NodeId → Prop}

theorem closes_empty : Closes {} fun _ _ => False where
  square := ⟨rfl, rfl, by simp⟩
  lt _ _ h := h.elim
  locked _ _ h := h.elim
  exact a b := by
    refine iff_of_false (by simp [BitMatrix.bit]) fun h => ?_
    obtain ⟨_, h, -⟩ := Relation.TransGen.head'_iff.mp h
    exact h

theorem Closes.congr (h : g.Closes E) {E' : NodeId → NodeId → Prop}
    (hE : ∀ a b, E a b ↔ E' a b) : g.Closes E' := by
  obtain rfl : E = E' := by
    funext a b
    exact propext (hE a b)
  exact h

/-- A step that adds the loop of a new node, or an edge from a node that is not locked to one that
is, keeps the rows closed. -/
theorem Closes.adds (h : g.Closes E) (ha : Adds g new g') :
    g'.Closes fun a b => E a b ∨ new = some (a, b) := by
  refine ⟨ha.square, ?_, ?_, fun a b => ?_⟩
  · rintro a b (hE | hnew)
    · exact (h.lt a b hE).imp (Nat.lt_of_lt_of_le · ha.size) (Nat.lt_of_lt_of_le · ha.size)
    · exact ⟨(ha.source a b hnew).1, (ha.target a b hnew).1⟩
  · rintro a b (hE | hnew) hne
    · exact ha.locked b (h.locked a b hE hne)
    · exact ha.locked b ((ha.target a b hnew).2 hne)
  · rw [ha.bit, h.exact]
    cases new with
    | none => simp
    | some edge =>
      obtain ⟨s, t⟩ := edge
      have hs : ∀ x, E x s → x = s := fun x hE =>
        Classical.byContradiction fun hne => (ha.source s t rfl).2 (h.locked x s hE hne)
      have hedge : (fun x y => E x y ∨ some (s, t) = some (x, y)) =
          fun x y => E x y ∨ x = s ∧ y = t := by
        funext x y
        simp [eq_comm]
      rw [hedge, reaches_with_edge hs]
      simp only [h.exact]
      refine or_congr_right ⟨?_, ?_⟩
      · rintro ⟨x, ⟨⟩, hb⟩
        exact ⟨rfl, hb⟩
      · rintro ⟨rfl, hb⟩
        exact ⟨t, rfl, hb⟩

theorem Closes.of_same (h : g.Closes E) (hnodes : g'.nodes = g.nodes) (hrows : g'.rows = g.rows) :
    g'.Closes E := by
  refine ⟨by rw [hnodes, hrows]; exact h.square, by rw [hnodes]; exact h.lt, fun a b hE hne => ?_,
    by rw [hrows]; exact h.exact⟩
  obtain ⟨node, hnode, hl⟩ := h.locked a b hE hne
  exact ⟨node, by rw [hnodes, hnode], hl⟩

theorem Closes.change (h : g.Closes E) (label : Nat → String) (c : Change) (cs : List Change) :
    ∃ E' : NodeId → NodeId → Prop, (g.change label c).1.Closes E' ∧
      ∀ a b, E' a b ∨ (a, b) ∈ edges label (g.change label c).1 cs ↔
        E a b ∨ (a, b) ∈ edges label g (c :: cs) := by
  rcases change_cases h.square label c with ⟨x, hx, hnodes, hrows⟩ | ⟨hok, ha⟩
  · exact ⟨E, h.of_same hnodes hrows, fun a b => by simp only [edges, hx]⟩
  · refine ⟨_, h.adds ha, fun a b => ?_⟩
    simp only [edges, hok, List.mem_append, Option.mem_toList, or_assoc]

theorem Closes.changeAll (h : g.Closes E) (label : Nat → String) (cs : List Change) :
    (g.changeAll label cs).Closes fun a b => E a b ∨ (a, b) ∈ edges label g cs := by
  induction cs generalizing g E with
  | nil => exact h.congr fun a b => by simp [edges]
  | cons c cs ih =>
    obtain ⟨E', h', hE⟩ := h.change label c cs
    exact (ih h').congr hE

structure Keeps (g g' : Quotient) : Prop where
  size : g.nodes.size ≤ g'.nodes.size
  locked : ∀ n, g.Locked n → g'.Locked n
  bit : ∀ a b, g.Locked a → g'.rows.bit a b = g.rows.bit a b

theorem keeps_change (h : g.rows.Square g.nodes.size) (label : Nat → String) (c : Change) :
    Keeps g (g.change label c).1 := by
  rcases change_cases h label c with ⟨x, -, hnodes, hrows⟩ | ⟨-, ha⟩
  · refine ⟨by rw [hnodes], fun n hn => ?_, fun a b _ => by rw [hrows]⟩
    rwa [Locked, hnodes]
  · refine ⟨ha.size, ha.locked, fun a b hl => Bool.eq_iff_iff.mpr ?_⟩
    rw [ha.bit]
    exact or_iff_left fun ⟨t, hnew, _⟩ => (ha.source a t hnew).2 hl

theorem Closes.keeps_changeAll (h : g.Closes E) (label : Nat → String) (cs : List Change) :
    Keeps g (g.changeAll label cs) := by
  induction cs generalizing g E with
  | nil => exact ⟨Nat.le_refl _, fun _ => id, fun _ _ _ => rfl⟩
  | cons c cs ih =>
    obtain ⟨E', h', -⟩ := h.change label c cs
    have hc := keeps_change h.square label c
    have hcs := ih h'
    exact ⟨hc.size.trans hcs.size, fun n hn => hcs.locked n (hc.locked n hn), fun a b hl =>
      (hcs.bit a b (hc.locked a hl)).trans (hc.bit a b hl)⟩

theorem reaches_congr (hnodes : g'.nodes = g.nodes) (hrows : g'.rows = g.rows) (a b : NodeId) :
    g'.reaches a b = g.reaches a b := by
  rw [reaches, reaches, node, node, hnodes, hrows]

/-- After any changes, a locked node reaches what the edges lead it to, later changes keep its row,
and a change that fails keeps every answer. -/
theorem quotient_answers_are_paths (label : Nat → String) (changes : List Change) :
    let g := changeAll label {} changes
    (∀ a, g.Locked a →
      (∀ b < g.size, ∃ answer, g.reaches a b = .ok answer ∧
        (answer = true ↔ TransGen (fun x y => (x, y) ∈ edges label {} changes) a b)) ∧
      ∀ later : List Change,
        (∀ b, (g.changeAll label later).rows.bit a b = g.rows.bit a b) ∧
        ∀ b < g.size, (g.changeAll label later).reaches a b = g.reaches a b) ∧
    ∀ (c : Change) (e : Failure), (g.change label c).2 = .error e →
      ∀ a b, (g.change label c).1.reaches a b = g.reaches a b := by
  intro g
  have h : g.Closes fun a b => False ∨ (a, b) ∈ edges label {} changes :=
    closes_empty.changeAll label changes
  have h : g.Closes fun a b => (a, b) ∈ edges label {} changes := h.congr fun a b => by simp
  refine ⟨fun a ha => ⟨fun b hb => ?_, fun later => ?_⟩, fun c e he a b => ?_⟩
  · exact ⟨_, reaches_locked h.square ha hb, h.exact a b⟩
  · have hkeeps := h.keeps_changeAll label later
    refine ⟨fun b => hkeeps.bit a b ha, fun b hb => ?_⟩
    rw [reaches_locked (h.changeAll label later).square (hkeeps.locked a ha)
      (Nat.lt_of_lt_of_le hb hkeeps.size), reaches_locked h.square ha hb, hkeeps.bit a b ha]
  · rcases change_cases h.square label c with ⟨-, -, hnodes, hrows⟩ | ⟨hok, -⟩
    · exact reaches_congr hnodes hrows a b
    · simp [hok] at he

/-- Node 1 is linked to the loop 0. A link to node 0 before it is locked fails, and so does a second
home for an element. -/
def linkedLoop : List Change :=
  [.create true, .create false, .link 1 0, .lock 0, .link 1 0, .addMember 1 7, .addMember 0 7,
    .lock 1, .create false]

theorem linkedLoop_reaches_loop :
    let g := changeAll toString {} linkedLoop
    let Edge := fun x y => (x, y) ∈ edges toString {} linkedLoop
    g.Locked 1 ∧ TransGen Edge 1 0 ∧ ¬ TransGen Edge 1 2 ∧
      (∀ later : List Change, (g.changeAll toString later).reaches 1 0 = .ok true) ∧
      ∃ e, (g.change toString (.link 1 2)).2 = .error e ∧
        ∀ a b, (g.change toString (.link 1 2)).1.reaches a b = g.reaches a b := by
  intro g Edge
  obtain ⟨hanswers, hfails⟩ := quotient_answers_are_paths toString linkedLoop
  have hlocked : g.Locked 1 := ⟨{ nonTrivial := false, locked := true, members := [7] },
    by decide +kernel, rfl⟩
  obtain ⟨hpaths, hlater⟩ := hanswers 1 hlocked
  have h0 : g.reaches 1 0 = .ok true := by decide +kernel
  have h2 : g.reaches 1 2 = .ok false := by decide +kernel
  obtain ⟨answer, hanswer, hiff⟩ := hpaths 0 (by decide +kernel)
  obtain ⟨answer', hanswer', hiff'⟩ := hpaths 2 (by decide +kernel)
  cases h0.symm.trans hanswer
  cases h2.symm.trans hanswer'
  refine ⟨hlocked, hiff.mp rfl, fun h => by simpa using hiff'.mpr h, fun later => ?_, ?_⟩
  · exact ((hlater later).2 0 (by decide +kernel)).trans h0
  · have he : (g.change toString (.link 1 2)).2 =
        .error (.error ⟨.orderingViolation (OrderFault.sourceLocked 1 2).message, none⟩) := by
      decide +kernel
    exact ⟨_, he, hfails _ _ he⟩

end Quotient

end YieldPlan
