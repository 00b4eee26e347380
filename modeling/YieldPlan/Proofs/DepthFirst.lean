import YieldPlan.Graph.Search
import Mathlib.Logic.Relation
import Mathlib.Data.List.Nodup
import Mathlib.Data.List.Pairwise

/-! A node is open while it has been met and not finished; every open node leads to the node that is
being visited. So when a node finishes, either all that it leads to has finished, or it leads to an
open node that leads back to it. From this the components come one after the other, each after those
that it leads to. -/

namespace YieldPlan.Graph

variable {α : Type} {next : α → List α}

def Reaches (next : α → List α) : α → α → Prop := Relation.ReflTransGen fun u v => v ∈ next u

theorem Reaches.step {u v w : α} (h : v ∈ next u) (hr : Reaches next v w) :
    Reaches next u w := .head h hr

theorem Reaches.exit {S : α → Prop} {u w : α} (h : Reaches next u w) (hu : S u)
    (hw : ¬ S w) : ∃ x y, S x ∧ ¬ S y ∧ Reaches next u x ∧ y ∈ next x := by
  induction h with
  | refl => exact absurd hu hw
  | @tail x y hux hxy ih =>
    by_cases hx : S x
    · exact ⟨x, y, hx, hw, hux, hxy⟩
    · exact ih hx

theorem Reaches.closed {S : α → Prop} {u w : α} (h : Reaches next u w)
    (hS : ∀ x, S x → ∀ y ∈ next x, S y) (hu : S u) : S w := by
  by_contra hw
  obtain ⟨x, y, hx, hy, -, hxy⟩ := h.exit hu hw
  exact hy (hS x hx y hxy)

def Mutual (next : α → List α) (u v : α) : Prop := Reaches next u v ∧ Reaches next v u

theorem Mutual.symm {u v : α} (h : Mutual next u v) : Mutual next v u :=
  ⟨h.2, h.1⟩

theorem Mutual.trans {u v w : α} (h : Mutual next u v) (k : Mutual next v w) :
    Mutual next u w := ⟨.trans h.1 k.1, .trans k.2 h.2⟩

/-- A node under exploration. -/
def Search.Open (s : Search α) (v : α) : Prop := v ∈ s.seen ∧ v ∉ s.finished

/-- What a search keeps true. A finished node leads only to nodes finished by then, or it is in one
component with a node that was not. -/
structure Search.Sound (next : α → List α) (s : Search α) : Prop where
  seen : ∀ v ∈ s.finished, v ∈ s.seen
  nodup : s.finished.Nodup
  edges : ∀ u ∈ s.finished, ∀ v ∈ next u, v ∈ s.seen
  settled : ∀ u earlier, u :: earlier <:+ s.finished →
    (∀ w, Reaches next u w → w ∈ u :: earlier) ∨ ∃ v, v ∉ u :: earlier ∧ Mutual next u v

/-- The search has gone on to `s'` by visiting `vs` and what they lead to. -/
structure Search.Explored (next : α → List α) (s : Search α) (vs : List α) (s' : Search α) :
    Prop where
  sound : s'.Sound next
  grows : ∀ u ∈ s.seen, u ∈ s'.seen
  met : ∀ v ∈ vs, v ∈ s'.seen
  back : ∀ u, s'.Open u ↔ s.Open u
  only : ∀ u ∈ s'.seen, u ∈ s.seen ∨ ∃ v ∈ vs, Reaches next v u

theorem Search.Explored.refl {s : Search α} {vs : List α} (hs : s.Sound next)
    (h : ∀ v ∈ vs, v ∈ s.seen) : s.Explored next vs s :=
  ⟨hs, fun _ hu => hu, h, fun _ => Iff.rfl, fun _ hu => .inl hu⟩

theorem Search.Explored.trans {s t u : Search α} {v : α} {vs : List α}
    (h : s.Explored next [v] t) (k : t.Explored next vs u) : s.Explored next (v :: vs) u where
  sound := k.sound
  grows x hx := k.grows x (h.grows x hx)
  met x hx := by
    rcases List.mem_cons.mp hx with rfl | hx
    · exact k.grows x (h.met x List.mem_cons_self)
    · exact k.met x hx
  back x := (k.back x).trans (h.back x)
  only x hx := by
    rcases k.only x hx with hx | ⟨w, hw, hr⟩
    · rcases h.only x hx with hx | ⟨w, hw, hr⟩
      · exact .inl hx
      · exact .inr ⟨w, List.mem_cons.mpr (.inl (List.mem_singleton.mp hw)), hr⟩
    · exact .inr ⟨w, List.mem_cons_of_mem _ hw, hr⟩

theorem Search.Explored.finish {s t : Search α} {v : α} (hs : s.Sound next) (hv : v ∉ s.seen)
    (hopen : ∀ u, s.Open u → Reaches next u v)
    (h : Search.Explored next { s with seen := v :: s.seen } (next v) t) :
    s.Explored next [v] { t with finished := v :: t.finished } := by
  have hback : ∀ u, t.Open u ↔ s.Open u ∨ u = v := by
    intro u
    refine (h.back u).trans ⟨fun ⟨hu, hn⟩ => ?_, ?_⟩
    · rcases List.mem_cons.mp hu with rfl | hu
      · exact .inr rfl
      · exact .inl ⟨hu, hn⟩
    · rintro (⟨hu, hn⟩ | rfl)
      · exact ⟨List.mem_cons_of_mem _ hu, hn⟩
      · exact ⟨List.mem_cons_self, fun hn => hv (hs.seen u hn)⟩
  have hvt : t.Open v := (hback v).mpr (.inr rfl)
  have hedges : ∀ u ∈ v :: t.finished, ∀ w ∈ next u, w ∈ t.seen := by
    intro u hu w hw
    rcases List.mem_cons.mp hu with rfl | hu
    · exact h.met w hw
    · exact h.sound.edges u hu w hw
  refine ⟨⟨?_, List.nodup_cons.mpr ⟨hvt.2, h.sound.nodup⟩, hedges, ?_⟩, ?_, ?_, ?_, ?_⟩
  · intro u hu
    rcases List.mem_cons.mp hu with rfl | hu
    · exact hvt.1
    · exact h.sound.seen u hu
  · intro u earlier hsuf
    rcases List.suffix_cons_iff.mp hsuf with heq | hsuf
    · obtain ⟨rfl, rfl⟩ := List.cons.inj heq
      rw [or_iff_not_imp_left]
      intro hout
      simp only [not_forall] at hout
      obtain ⟨w, hw, hnot⟩ := hout
      obtain ⟨x, y, hx, hy, hux, hxy⟩ := hw.exit (S := fun x => x ∈ u :: t.finished)
        List.mem_cons_self hnot
      have hyt : t.Open y := ⟨hedges x hx y hxy, fun hf => hy (List.mem_cons_of_mem _ hf)⟩
      refine ⟨y, hy, hux.tail hxy, ?_⟩
      rcases (hback y).mp hyt with hys | rfl
      · exact hopen y hys
      · exact .refl
    · exact h.sound.settled u earlier hsuf
  · exact fun u hu => h.grows u (List.mem_cons_of_mem _ hu)
  · intro u hu
    rw [List.mem_singleton.mp hu]
    exact hvt.1
  · intro u
    constructor
    · rintro ⟨hu, hn⟩
      obtain ⟨hne, hn⟩ := not_or.mp fun hc => hn (List.mem_cons.mpr hc)
      exact ((hback u).mp ⟨hu, hn⟩).resolve_right hne
    · intro hu
      have hut := (hback u).mpr (.inl hu)
      refine ⟨hut.1, fun hc => ?_⟩
      rcases List.mem_cons.mp hc with rfl | hc
      · exact hv hu.1
      · exact hut.2 hc
  · intro u hu
    rcases h.only u hu with hu | ⟨w, hw, hr⟩
    · rcases List.mem_cons.mp hu with rfl | hu
      · exact .inr ⟨u, List.mem_cons_self, .refl⟩
      · exact .inl hu
    · exact .inr ⟨v, List.mem_cons_self, hr.step hw⟩

theorem Search.sound_empty : Search.Sound next {} :=
  ⟨by simp, List.nodup_nil, by simp, fun _ _ h => by simp at h⟩

theorem Search.Explored.finished {s : Search α} {vs : List α}
    (h : Search.Explored next {} vs s) (v : α) : v ∈ s.finished ↔ v ∈ s.seen := by
  refine ⟨h.sound.seen v, fun hv => ?_⟩
  by_contra hn
  have := (h.back v).mp ⟨hv, hn⟩
  simp [Search.Open] at this

theorem Search.Explored.seen_iff {s : Search α} {vs : List α}
    (h : Search.Explored next {} vs s) (u : α) : u ∈ s.seen ↔ ∃ v ∈ vs, Reaches next v u := by
  constructor
  · intro hu
    exact (h.only u hu).resolve_left (by simp)
  · rintro ⟨v, hv, hr⟩
    refine hr.closed (S := fun x => x ∈ s.seen) (fun x hx y hy => ?_) (h.met v hv)
    exact h.sound.edges x ((h.finished x).mpr hx) y hy

variable [DecidableEq α] {nodes : List α}

def Search.unseen (nodes : List α) (s : Search α) : Nat :=
  (nodes.filter fun v => v ∉ s.seen).length

theorem Search.unseen_le {s t : Search α} (h : ∀ u ∈ s.seen, u ∈ t.seen) :
    t.unseen nodes ≤ s.unseen nodes := by
  refine (List.monotone_filter_right nodes fun v hv => ?_).length_le
  simp only [decide_eq_true_eq] at hv ⊢
  exact fun hs => hv (h v hs)

theorem Search.unseen_lt {s : Search α} {v : α} (hv : v ∈ nodes) (h : v ∉ s.seen) :
    Search.unseen nodes { s with seen := v :: s.seen } < s.unseen nodes := by
  have hsub : (nodes.filter fun u => u ∉ v :: s.seen).Sublist
      ((nodes.filter fun u => u ∉ s.seen).filter fun u => u ≠ v) := by
    rw [List.filter_filter]
    exact List.monotone_filter_right nodes fun u hu => by simp_all
  refine Nat.lt_of_le_of_lt hsub.length_le
    (List.length_filter_lt_length_iff_exists.mpr ⟨v, ?_, by simp⟩)
  exact List.mem_filter.mpr ⟨hv, by simpa using h⟩

theorem foldl_explored {fuel : Nat} {f : Search α → α → Search α}
    (hf : ∀ (s : Search α) v, s.Sound next → v ∈ nodes → s.unseen nodes ≤ fuel →
      (∀ u, s.Open u → Reaches next u v) → s.Explored next [v] (f s v))
    {vs : List α} {s : Search α} (hs : s.Sound next) (hvs : ∀ v ∈ vs, v ∈ nodes)
    (hfuel : s.unseen nodes ≤ fuel) (hopen : ∀ v ∈ vs, ∀ u, s.Open u → Reaches next u v) :
    s.Explored next vs (vs.foldl f s) := by
  induction vs generalizing s with
  | nil => exact .refl hs (by simp)
  | cons v vs ih =>
    have hv := hf s v hs (hvs v List.mem_cons_self) hfuel (hopen v List.mem_cons_self)
    refine hv.trans (ih hv.sound (fun w hw => hvs w (List.mem_cons_of_mem _ hw))
      (Nat.le_trans (Search.unseen_le hv.grows) hfuel) fun w hw u hu => ?_)
    exact hopen w (List.mem_cons_of_mem _ hw) u ((hv.back u).mp hu)

theorem visit_explored (hclosed : ∀ v ∈ nodes, ∀ w ∈ next v, w ∈ nodes) (fuel : Nat)
    (s : Search α) (v : α) (hs : s.Sound next) (hv : v ∈ nodes) (hfuel : s.unseen nodes ≤ fuel)
    (hopen : ∀ u, s.Open u → Reaches next u v) :
    s.Explored next [v] (visit next fuel s v) := by
  induction fuel generalizing s v with
  | zero =>
    refine .refl hs fun u hu => ?_
    rw [List.mem_singleton.mp hu]
    by_contra hn
    exact absurd (Search.unseen_lt hv hn) (by omega)
  | succ fuel ih =>
    rw [visit]
    split
    · next hseen => exact .refl hs (by simpa using hseen)
    · next hseen =>
      refine .finish hs hseen hopen (foldl_explored ih ?_ (hclosed v hv) ?_ ?_)
      · exact ⟨fun u hu => List.mem_cons_of_mem _ (hs.seen u hu), hs.nodup,
          fun u hu w hw => List.mem_cons_of_mem _ (hs.edges u hu w hw), hs.settled⟩
      · exact Nat.le_of_lt_succ (Nat.lt_of_lt_of_le (Search.unseen_lt hv hseen) hfuel)
      · rintro w hw u ⟨hu, hn⟩
        rcases List.mem_cons.mp hu with rfl | hu
        · exact .single hw
        · exact (hopen u ⟨hu, hn⟩).tail hw

theorem Search.unseen_empty : Search.unseen nodes {} ≤ nodes.length := List.length_filter_le _ _

theorem nodes_explored (hclosed : ∀ v ∈ nodes, ∀ w ∈ next v, w ∈ nodes) :
    Search.Explored next {} nodes (nodes.foldl (visit next nodes.length) {}) :=
  foldl_explored (visit_explored hclosed nodes.length) Search.sound_empty (fun _ hv => hv)
    Search.unseen_empty fun _ _ u hu => by simp [Search.Open] at hu

theorem mem_reachableFrom (hclosed : ∀ v ∈ nodes, ∀ w ∈ next v, w ∈ nodes) {v u : α}
    (hv : v ∈ nodes) : u ∈ reachableFrom nodes.length next v ↔ Reaches next v u := by
  have h := visit_explored hclosed nodes.length {} v Search.sound_empty hv Search.unseen_empty
    (fun u hu => by simp [Search.Open] at hu)
  rw [reachableFrom, List.mem_reverse, h.seen_iff]
  simp

/-- The strong components of a graph, each after those that it leads to. -/
structure IsComponents (nodes : List α) (next : α → List α) (cs : List (List α)) : Prop where
  nodup : cs.flatten.Nodup
  mem_iff : ∀ v, v ∈ cs.flatten ↔ v ∈ nodes
  ne_nil : ∀ c ∈ cs, c ≠ []
  strong : ∀ c ∈ cs, ∀ u ∈ c, ∀ v, v ∈ c ↔ Mutual next u v
  later : ∀ before c after, cs = before ++ c :: after → ∀ u ∈ c, ∀ v, Reaches next u v →
    v ∈ c ∨ v ∈ before.flatten

theorem mem_finishOrder (hclosed : ∀ v ∈ nodes, ∀ w ∈ next v, w ∈ nodes) (v : α) :
    v ∈ finishOrder nodes next ↔ v ∈ nodes := by
  have h := nodes_explored hclosed
  rw [finishOrder, List.mem_reverse, h.finished, h.seen_iff]
  exact ⟨fun ⟨u, hu, hr⟩ => hr.closed hclosed hu, fun hv => ⟨v, hv, .refl⟩⟩

theorem nodup_finishOrder (hclosed : ∀ v ∈ nodes, ∀ w ∈ next v, w ∈ nodes) :
    (finishOrder nodes next).Nodup := List.nodup_reverse.mpr (nodes_explored hclosed).sound.nodup

/-- A node that finishes last in its component finishes after all that it leads to. -/
theorem settled_finishOrder (hclosed : ∀ v ∈ nodes, ∀ w ∈ next v, w ∈ nodes) {v : α}
    {before after : List α} (h : finishOrder nodes next = before ++ v :: after)
    (hlast : ∀ u ∈ after, ¬ Mutual next v u) {w : α} (hw : Reaches next v w) :
    w = v ∨ w ∈ before := by
  have hx := nodes_explored hclosed
  have hv : v ∈ nodes := (mem_finishOrder hclosed v).mp (by rw [h]; simp)
  have hsuf : v :: before.reverse <:+ (nodes.foldl (visit next nodes.length) {}).finished := by
    rw [← List.reverse_prefix, ← finishOrder, h]
    exact ⟨after, by simp⟩
  rcases hx.sound.settled v before.reverse hsuf with hall | ⟨u, hu, hvu⟩
  · simpa using hall w hw
  · have hmem : u ∈ finishOrder nodes next := (mem_finishOrder hclosed u).mpr (hvu.1.closed hclosed hv)
    rw [h] at hmem
    simp only [List.mem_cons, List.mem_reverse, not_or] at hu
    simp only [List.mem_append, List.mem_cons, hu, false_or] at hmem
    exact absurd hvu (hlast u hmem)

def reachTable (nodes : List α) (next : α → List α) : Table α (List α) :=
  ⟨(finishOrder nodes next).map fun v => (v, reachableFrom nodes.length next v)⟩

theorem get?_reachTable (hclosed : ∀ v ∈ nodes, ∀ w ∈ next v, w ∈ nodes) {v : α}
    (hv : v ∈ nodes) :
    (reachTable nodes next).get? v = some (reachableFrom nodes.length next v) := by
  have hmem := (mem_finishOrder hclosed v).mpr hv
  have hlookup : ∀ l : List α, v ∈ l →
      (l.map fun v => (v, reachableFrom nodes.length next v)).lookup v =
        some (reachableFrom nodes.length next v) := by
    intro l hl
    induction l with
    | nil => cases hl
    | cons u l ih =>
      by_cases huv : v = u
      · subst huv
        simp
      · have : (v == u) = false := by simpa using huv
        simp only [List.map_cons, List.lookup_cons, this]
        exact ih ((List.mem_cons.mp hl).resolve_left huv)
  exact hlookup _ hmem

theorem mem_component (hclosed : ∀ v ∈ nodes, ∀ w ∈ next v, w ∈ nodes) {v : α} (hv : v ∈ nodes)
    (u : α) :
    u ∈ component (finishOrder nodes next) (reachTable nodes next) v ↔ Mutual next v u := by
  have hu : Mutual next v u → u ∈ nodes := fun h => h.1.closed hclosed hv
  simp only [component, List.mem_filter, mem_finishOrder hclosed, Bool.and_eq_true,
    List.contains_iff_mem]
  constructor
  · rintro ⟨hu, hvu, huv⟩
    rw [get?_reachTable hclosed hv, Option.getD_some, mem_reachableFrom hclosed hv] at hvu
    rw [get?_reachTable hclosed hu, Option.getD_some, mem_reachableFrom hclosed hu] at huv
    exact ⟨hvu, huv⟩
  · intro h
    rw [get?_reachTable hclosed hv, get?_reachTable hclosed (hu h), Option.getD_some,
      Option.getD_some, mem_reachableFrom hclosed hv, mem_reachableFrom hclosed (hu h)]
    exact ⟨hu h, h⟩

theorem component_eq (hclosed : ∀ v ∈ nodes, ∀ w ∈ next v, w ∈ nodes) {u v : α} (hv : v ∈ nodes)
    (h : Mutual next v u) :
    component (finishOrder nodes next) (reachTable nodes next) u =
      component (finishOrder nodes next) (reachTable nodes next) v := by
  have hu : u ∈ nodes := h.1.closed hclosed hv
  refine List.filter_congr fun w hw => ?_
  have hmem : ∀ x, x ∈ nodes → (((((reachTable nodes next).get? x).getD []).contains w &&
      (((reachTable nodes next).get? w).getD []).contains x) = true ↔ Mutual next x w) := by
    intro x hx
    rw [← mem_component hclosed hx, component, List.mem_filter, and_iff_right hw]
  rw [Bool.eq_iff_iff, hmem u hu, hmem v hv]
  exact ⟨h.trans, h.symm.trans⟩

def closes (nodes : List α) (next : α → List α) (v : α) : Option (List α) :=
  let members := component (finishOrder nodes next) (reachTable nodes next) v
  if members.getLast? = some v then some members else none

theorem components_eq : components nodes next = (finishOrder nodes next).filterMap (closes nodes next) :=
  rfl

theorem closes_eq_some {v : α} {c : List α} : closes nodes next v = some c ↔
    component (finishOrder nodes next) (reachTable nodes next) v = c ∧ c.getLast? = some v := by
  simp only [closes]
  split
  · next h => simp only [Option.some.injEq]; exact ⟨fun hc => hc ▸ ⟨rfl, h⟩, fun hc => hc.1⟩
  · next h =>
    simp only [reduceCtorEq, false_iff, not_and]
    rintro rfl hc
    exact h hc

theorem exists_closes (hclosed : ∀ v ∈ nodes, ∀ w ∈ next v, w ∈ nodes) {v : α} (hv : v ∈ nodes) :
    ∃ u c, Mutual next v u ∧ closes nodes next u = some c ∧ v ∈ c := by
  have hvc : v ∈ component (finishOrder nodes next) (reachTable nodes next) v :=
    (mem_component hclosed hv v).mpr ⟨.refl, .refl⟩
  obtain ⟨u, hu⟩ := Option.isSome_iff_exists.mp
    (List.getLast?_isSome.mpr (List.ne_nil_of_mem hvc))
  have hvu := (mem_component hclosed hv u).mp (List.mem_of_getLast? hu)
  refine ⟨u, _, hvu, closes_eq_some.mpr ⟨component_eq hclosed hv hvu, hu⟩, hvc⟩

omit [DecidableEq α] in
private theorem mem_of_getLast?_filter {q : α → Bool} {l xs ys : List α} {u v : α}
    (hl : l = xs ++ u :: ys) (hu : q u) (h : (l.filter q).getLast? = some v) : v ∈ u :: ys := by
  rw [hl, List.filter_append, List.filter_cons_of_pos hu, List.getLast?_append_cons] at h
  rcases List.mem_cons.mp (List.mem_of_getLast? h) with rfl | hv
  · exact List.mem_cons_self
  · exact List.mem_cons_of_mem _ (List.mem_filter.mp hv).1

/-- A node that closes its component finishes after all that it leads to. -/
theorem closes_settled (hclosed : ∀ v ∈ nodes, ∀ w ∈ next v, w ∈ nodes) {v : α} {c : List α}
    {before after : List α} (h : finishOrder nodes next = before ++ v :: after)
    (hc : closes nodes next v = some c) {w : α} (hw : Reaches next v w) : w = v ∨ w ∈ before := by
  refine settled_finishOrder hclosed h (fun u hu hvu => ?_) hw
  obtain ⟨rfl, hlast⟩ := closes_eq_some.mp hc
  have hv : v ∈ nodes := (mem_finishOrder hclosed v).mp (by rw [h]; simp)
  have hnd := nodup_finishOrder hclosed
  obtain ⟨a, b, rfl⟩ := List.append_of_mem hu
  -- The component lists its nodes in the order in which they finish, so `v` does not come last.
  have huc := (mem_component hclosed hv u).mpr hvu
  have hsplit : finishOrder nodes next = (before ++ v :: a) ++ u :: b := by simp [h]
  have hvb : v ∈ u :: b := mem_of_getLast?_filter hsplit (List.mem_filter.mp huc).2 hlast
  rw [hsplit] at hnd
  exact (List.nodup_append.mp hnd).2.2 v (by simp) v hvb rfl

theorem components_spec (hclosed : ∀ v ∈ nodes, ∀ w ∈ next v, w ∈ nodes) :
    IsComponents nodes next (components nodes next) := by
  have hmem : ∀ {c}, c ∈ components nodes next → ∃ v ∈ nodes,
      component (finishOrder nodes next) (reachTable nodes next) v = c ∧ c.getLast? = some v := by
    intro c hc
    rw [components_eq, List.mem_filterMap] at hc
    obtain ⟨v, hv, hvc⟩ := hc
    exact ⟨v, (mem_finishOrder hclosed v).mp hv, closes_eq_some.mp hvc⟩
  have hstrong : ∀ c ∈ components nodes next, ∀ u ∈ c, ∀ v, v ∈ c ↔ Mutual next u v := by
    intro c hc u hu v
    obtain ⟨w, hw, rfl, -⟩ := hmem hc
    have hwu := (mem_component hclosed hw u).mp hu
    rw [mem_component hclosed hw]
    exact ⟨hwu.symm.trans, hwu.trans⟩
  refine ⟨?_, ?_, ?_, hstrong, ?_⟩
  · refine List.nodup_flatten.mpr ⟨fun c hc => ?_, ?_⟩
    · obtain ⟨v, hv, rfl, -⟩ := hmem hc
      exact (nodup_finishOrder hclosed).filter _
    · rw [components_eq, List.pairwise_filterMap]
      refine (nodup_finishOrder hclosed).imp_of_mem fun {u v} hu hv huv c hc d hd x hxc hxd => ?_
      obtain ⟨rfl, hcu⟩ := closes_eq_some.mp hc
      obtain ⟨rfl, hdv⟩ := closes_eq_some.mp hd
      have hu' := (mem_finishOrder hclosed u).mp hu
      have hv' := (mem_finishOrder hclosed v).mp hv
      have hmut : Mutual next u v :=
        ((mem_component hclosed hu' x).mp hxc).trans ((mem_component hclosed hv' x).mp hxd).symm
      rw [component_eq hclosed hu' hmut, hcu] at hdv
      exact huv (Option.some.inj hdv)
  · intro v
    simp only [List.mem_flatten]
    constructor
    · rintro ⟨c, hc, hvc⟩
      obtain ⟨w, hw, rfl, -⟩ := hmem hc
      exact ((mem_component hclosed hw v).mp hvc).1.closed hclosed hw
    · intro hv
      obtain ⟨u, c, hvu, hc, hvc⟩ := exists_closes hclosed hv
      refine ⟨c, ?_, hvc⟩
      rw [components_eq, List.mem_filterMap]
      exact ⟨u, (mem_finishOrder hclosed u).mpr (hvu.1.closed hclosed hv), hc⟩
  · rintro c hc rfl
    obtain ⟨v, -, -, hlast⟩ := hmem hc
    cases hlast
  · intro before c after hcs u hu w hw
    rw [components_eq] at hcs
    obtain ⟨os, rest, horder, hbefore, hrest⟩ := List.filterMap_eq_append_iff.mp hcs
    obtain ⟨skipped, v, os', hrest', hskipped, hvc, -⟩ := List.filterMap_eq_cons_iff.mp hrest
    have horder' : finishOrder nodes next = (os ++ skipped) ++ v :: os' := by
      rw [horder, hrest', List.append_assoc]
    have hv : v ∈ nodes := (mem_finishOrder hclosed v).mp (by rw [horder']; simp)
    obtain ⟨rfl, hlast⟩ := closes_eq_some.mp hvc
    have hvu := (mem_component hclosed hv u).mp hu
    have hvw : Reaches next v w := .trans hvu.1 hw
    obtain ⟨x, d, hwx, hxd, hwd⟩ := exists_closes hclosed (hvw.closed hclosed hv)
    rcases closes_settled hclosed horder' hvc (.trans hvw hwx.1) with rfl | hx
    · exact .inl ((mem_component hclosed hv w).mpr hwx.symm)
    · refine .inr (List.mem_flatten.mpr ⟨d, ?_, hwd⟩)
      rw [← hbefore, List.mem_filterMap]
      rcases List.mem_append.mp hx with hx | hx
      · exact ⟨x, hx, hxd⟩
      · rw [hskipped x hx] at hxd
        cases hxd

end YieldPlan.Graph
