import YieldPlan.Proofs.RegionSources
import YieldPlan.Proofs.StaticReduction
import YieldPlan.Proofs.WalkBounds

/-! A thread that goes around a cycle past its commit point must yield there, or its block never
ends. In static mode a mover that comes too late has a yield planned after it, and a point has one
before it that the walk comes back to past the commit point when it had not recorded that. Without
either, the cycle is left as it is: a loop that was first entered past the commit point and in which
nothing moves to the right has no request of its own, and the request at the first point of a thread
is not planned. -/

namespace YieldPlan

theorem mem_flatMap_of_subset {α β : Type} {us vs : List α} {f : α → List β} {b : β} (hsub : us ⊆ vs)
    (h : b ∈ us.flatMap f) : b ∈ vs.flatMap f := by
  obtain ⟨a, ha, hb⟩ := List.mem_flatMap.mp h
  exact List.mem_flatMap.mpr ⟨a, hsub ha, hb⟩

namespace PhaseTracker

open Program BlockStarts

section

variable (cx : Analysis) (pt : PhaseTracker) (t : ThreadId)

/-- What is executed in the block of `p` from some operations on, and the point where control goes
next. -/
inductive Leg (p : Point) : List OpId → List Visit → Point → Prop where
  | pass {o rest vs q} : Passes cx.prog o → Leg p rest vs q → Leg p (o :: rest) (⟨o, o⟩ :: vs) q
  | jump {v rest q} : Leads cx pt t p rest v q → Leg p (v.op :: rest) [v] q

/-- A path of the tracker between two points, with the points that it enters and all that it executes.
A cycle is a path back to its start. -/
inductive Route : Point → List Point → List Visit → Point → Prop where
  | nil {p} : Route p [] [] p
  | cons {p ops vs q ps us r} : p.ops? cx.prog = some ops → Leg cx pt t p ops vs q →
      Route q ps us r → Route p (p :: ps) (vs ++ us) r

end

variable {cx : Analysis} {pt : PhaseTracker} {t : ThreadId} {p q r : Point} {ps : List Point}
  {vs : List Visit} {v : Visit} {ops rest : List OpId}

theorem Leg.drop (h : Leg cx pt t p ops vs q) (hv : v ∈ vs) :
    ∃ rest us, v.op :: rest <:+ ops ∧ v :: us <:+ vs ∧ Leg cx pt t p (v.op :: rest) (v :: us) q := by
  induction h with
  | @pass o rest vs q ho hleg ih =>
    rcases List.mem_cons.mp hv with rfl | hv
    · exact ⟨rest, vs, List.suffix_rfl, List.suffix_rfl, .pass ho hleg⟩
    · obtain ⟨rest', us, hops, hvs, h⟩ := ih hv
      exact ⟨rest', us, hops.trans (List.suffix_cons _ _), hvs.trans (List.suffix_cons _ _), h⟩
  | jump hl =>
    obtain rfl := List.mem_singleton.mp hv
    exact ⟨_, [], List.suffix_rfl, List.suffix_rfl, .jump hl⟩

theorem Leg.head_mem {o : OpId} (h : Leg cx pt t p (o :: rest) vs q) :
    ∃ v ∈ vs, v.op = o ∧ v.last ∈ requestOps cx pt o := by
  cases h with
  | pass ho _ =>
    exact ⟨⟨o, o⟩, List.mem_cons_self, rfl, by simp [requestOps, opens?_of_ne ho.2.2]⟩
  | jump hl => exact ⟨_, List.mem_singleton_self _, rfl, hl.last_mem⟩

theorem Route.append {us : List Visit} {qs : List Point} (h : Route cx pt t p ps vs q)
    (k : Route cx pt t q qs us r) : Route cx pt t p (ps ++ qs) (vs ++ us) r := by
  induction h with
  | nil => exact k
  | cons hops hleg _ ih =>
    rw [List.cons_append, List.append_assoc]
    exact .cons hops hleg (ih k)

theorem Route.split (h : Route cx pt t p ps vs r) (hv : v ∈ vs) :
    ∃ p' ops us q ps₁ vs₁ ps₂ vs₂, Route cx pt t p ps₁ vs₁ p' ∧ p'.ops? cx.prog = some ops ∧
      Leg cx pt t p' ops us q ∧ v ∈ us ∧ Route cx pt t q ps₂ vs₂ r ∧ ps = ps₁ ++ p' :: ps₂ ∧
      vs = vs₁ ++ (us ++ vs₂) := by
  induction h with
  | nil => cases hv
  | @cons p ops us q ps ws r hops hleg hroute ih =>
    rcases List.mem_append.mp hv with hv | hv
    · exact ⟨p, ops, us, q, [], [], ps, ws, .nil, hops, hleg, hv, hroute, rfl, rfl⟩
    · obtain ⟨p', ops', us', q', ps₁, vs₁, ps₂, vs₂, hbefore, hops', hleg', hmem, hafter, rfl, rfl⟩ :=
        ih hv
      exact ⟨p', ops', us', q', p :: ps₁, us ++ vs₁, ps₂, vs₂, .cons hops hleg hbefore, hops', hleg',
        hmem, hafter, rfl, by simp⟩

theorem Route.rotate (h : Route cx pt t p ps vs p) (hv : v ∈ vs) :
    ∃ p' ops us q qs ws, p'.ops? cx.prog = some ops ∧ Leg cx pt t p' ops us q ∧ v ∈ us ∧
      us ⊆ vs ∧ Route cx pt t q qs ws q ∧ (∀ x, x ∈ qs ↔ x ∈ ps) ∧ ∀ x, x ∈ ws ↔ x ∈ vs := by
  obtain ⟨p', ops, us, q, ps₁, vs₁, ps₂, vs₂, hbefore, hops, hleg, hmem, hafter, rfl, rfl⟩ :=
    h.split hv
  have hround := (hafter.append hbefore).append (.cons hops hleg .nil)
  refine ⟨p', ops, us, q, _, _, hops, hleg, hmem, ?_, hround, fun x => ?_, fun x => ?_⟩
  · intro x hx
    simp [hx]
  · simp only [List.mem_append, List.mem_cons, List.not_mem_nil, or_false]
    tauto
  · simp only [List.mem_append, List.not_mem_nil, or_false]
    tauto

theorem Route.around {c : BlockId} {o b : OpId} (hops : (Point.entry c).ops? cx.prog = some [o, b])
    (ho : Passes cx.prog o) (hk : cx.prog.kind b = .terminator .branch)
    (hs : c ∈ (cx.prog.block c).succs) :
    Route cx pt t (.entry c) [.entry c] [⟨o, o⟩, ⟨b, b⟩] (.entry c) :=
  .cons hops (.pass ho (.jump (.branch hk hs))) .nil

theorem Route.head_mem (h : Route cx pt t p ps vs r) (hq : q ∈ ps) {o : OpId}
    (ho : q.op? cx.prog = some o) : ∃ v ∈ vs, v.op = o ∧ v.last ∈ requestOps cx pt o := by
  induction h with
  | nil => cases hq
  | cons hops hleg _ ih =>
    rcases List.mem_cons.mp hq with rfl | hq
    · have hhead := (ops?_head? hops).trans ho
      obtain ⟨rest, rfl⟩ := List.head?_eq_some_iff.mp hhead
      obtain ⟨v, hv, hlast⟩ := hleg.head_mem
      exact ⟨v, List.mem_append_left _ hv, hlast⟩
    · obtain ⟨v, hv, hlast⟩ := ih hq
      exact ⟨v, List.mem_append_right _ hv, hlast⟩

theorem phaseAfter_post {o : OpId} (hy : cx.prog.kind o ≠ .library .yield)
    (hm : ¬ (moverAt cx pt o).Advances) : phaseAfter cx pt o .post = .post := by
  rw [phaseAfter, if_neg hy]
  cases hmover : moverAt cx pt o with
  | right => exact absurd (.inl hmover) hm
  | _ => rfl

theorem Arrives.suffix {c : Area} (h : Arrives cx pt t p ops c) :
    ops <:+ (cx.prog.block p.block).ops := by
  induction h with
  | enter _ _ hops => exact ops?_suffix hops
  | pass _ _ ih => exact (List.suffix_cons _ _).trans ih

theorem Ahead.mono {points : List Point} {areas : Table Point Area} {s : Tracking} {c c' : Area}
    (h : Ahead cx pt t points areas s p ops c) (hle : c' ≤ c) :
    Ahead cx pt t points areas s p ops c' := by
  obtain ⟨a, succs, out, next, u, u', hc, hrun⟩ := h
  exact ⟨a, succs, out, next, u, u', Area.le_trans hle hc, hrun⟩

theorem Ahead.congr {points : List Point} {areas : Table Point Area} {s : Tracking} {c : Area}
    (hb : q.block = p.block) (h : Ahead cx pt t points areas s p ops c) :
    Ahead cx pt t points areas s q ops c := by
  unfold Ahead at h ⊢
  rw [hb]
  exact h

section Following

variable {w₀ w : Walk Tracking} (hkept : Kept cx pt t w₀ w)

include hkept

theorem Arrives.ahead {c : Area} (h : Arrives cx pt t p ops c) :
    Ahead cx pt t w.visited w.areas w.state p ops c := by
  induction h with
  | @enter a c ops ha hle hops =>
    obtain ⟨hrecorded, hvisited⟩ := hkept.visited_of_recorded ha
    exact hkept.finished.ahead hvisited hops hrecorded hle
  | pass _ ho ih => exact ih.pass ho

variable (hmode : pt.mode = .static) (hst : pt.requests.StaticAfter)

include hmode hst

theorem Ahead.yields_or_stays (h : Ahead cx pt t w.visited w.areas w.state p (v.op :: rest) .post)
    (hlast : v.last ∈ requestOps cx pt v.op) :
    .yields ∈ sights cx pt (Plan.ofThread cx pt t) v ∨
      ¬ (moverAt cx pt v.op).Advances ∧ phaseAfter cx pt v.op .post = .post := by
  by_cases hy : cx.prog.kind v.op = .library .yield
  · left
    simp [sights, hy]
  by_cases hm : (moverAt cx pt v.op).Advances
  · left
    have hhead := h.visit.late hmode hst hkept.requests hm hlast
    simp [sights, List.mem_of_mem_head? hhead]
  · exact .inr ⟨hm, phaseAfter_post hy hm⟩

theorem Leg.follow (hleg : Leg cx pt t p ops vs q)
    (h : Ahead cx pt t w.visited w.areas w.state p ops .post) :
    .yields ∈ vs.flatMap (sights cx pt (Plan.ofThread cx pt t)) ∨
      (∀ v ∈ vs, ¬ (moverAt cx pt v.op).Advances) ∧ w.Settled .post q := by
  induction hleg with
  | @pass o rest vs q ho _ ih =>
    rw [List.flatMap_cons, List.mem_append, List.forall_mem_cons]
    have hlast : o ∈ requestOps cx pt o := by simp [requestOps, opens?_of_ne ho.2.2]
    rcases Ahead.yields_or_stays (v := ⟨o, o⟩) hkept hmode hst h hlast with hy | ⟨hm, hpost⟩
    · exact .inl (.inl hy)
    · have hnext := h.pass ho
      rw [hpost] at hnext
      exact (ih hnext).imp .inr fun hrest => ⟨⟨hm, hrest.1⟩, hrest.2⟩
  | @jump v rest q hl =>
    rw [List.flatMap_singleton, List.forall_mem_singleton]
    rcases Ahead.yields_or_stays hkept hmode hst h hl.last_mem with hy | ⟨hm, hpost⟩
    · exact .inl hy
    · have hnext := h.jump hl
      rw [hpost] at hnext
      exact .inr ⟨hm, hnext⟩

theorem Route.follow (h : Route cx pt t p ps vs r) (hp : w.Settled .post p) :
    .yields ∈ vs.flatMap (sights cx pt (Plan.ofThread cx pt t)) ∨
      (∀ v ∈ vs, ¬ (moverAt cx pt v.op).Advances) ∧ (∀ q ∈ ps, w.Settled .post q) ∧
      w.Settled .post r := by
  induction h with
  | nil => exact .inr ⟨by simp, by simp, hp⟩
  | cons hops hleg _ ih =>
    rw [List.flatMap_append, List.mem_append, List.forall_mem_append, List.forall_mem_cons]
    obtain ⟨hmem, b, hb, hle⟩ := hp
    rcases hleg.follow hkept hmode hst (hkept.finished.ahead hmem hops hb hle) with hy | ⟨hm, hnext⟩
    · exact .inl (.inl hy)
    · exact (ih hnext).imp .inr fun ⟨hms, hqs, hlast⟩ =>
        ⟨⟨hm, hms⟩, ⟨⟨hmem, b, hb, hle⟩, hqs⟩, hlast⟩

/-- A cycle on which the tracker came past the commit point yields, or it moves nowhere to the right
and is past the commit point everywhere. -/
theorem Route.committed (hc : cx.prog.Coherent) (h : Route cx pt t p ps vs p) (hv : v ∈ vs)
    {a : Area} (harrives : Arrives cx pt t q (v.op :: rest) a) (ha : a.mayBePost) :
    .yields ∈ vs.flatMap (sights cx pt (Plan.ofThread cx pt t)) ∨
      (∀ v ∈ vs, ¬ (moverAt cx pt v.op).Advances) ∧ ∀ q ∈ ps, w.Settled .post q := by
  obtain ⟨p', ops, us, q', qs, ws, hops, hleg, hv, hsub, hround, hqs, hws⟩ := h.rotate hv
  obtain ⟨rest', us', hsuffix, hus, htail⟩ := hleg.drop hv
  have hahead : Ahead cx pt t w.visited w.areas w.state p' (v.op :: rest') .post := by
    obtain ⟨hb, hdrop⟩ := hc.drop_of_suffix (hsuffix.trans (ops?_suffix hops))
    obtain ⟨hb', hdrop'⟩ := hc.drop_of_suffix harrives.suffix
    have hsame : p'.block = q.block := hb.symm.trans hb'
    rw [← hdrop, hsame, hdrop']
    have hpost : Area.post ≤ a := by
      cases a with
      | pre => cases ha
      | _ => rfl
    exact ((harrives.ahead hkept).mono hpost).congr hsame
  -- From there the tracker stays past the commit point, to the end of the leg and then once around.
  rcases htail.follow hkept hmode hst hahead with hy | ⟨-, hsettled⟩
  · exact .inl (mem_flatMap_of_subset (List.Subset.trans hus.subset hsub) hy)
  rcases hround.follow hkept hmode hst hsettled with hy | ⟨hm, hpoints, -⟩
  · exact .inl (mem_flatMap_of_subset (fun x => (hws x).mp) hy)
  · right
    exact ⟨fun x hx => hm x ((hws x).mpr hx), fun x hx => hpoints x ((hqs x).mpr hx)⟩

end Following

theorem demandAt_static (hmode : pt.mode = .static) {o : OpId} {a : Area} {kind : BlockKind}
    {placement : Placement} (h : demandAt cx pt o a = some (kind, placement)) :
    kind = .static ∧ (moverAt cx pt o).Advances := by
  rw [demandAt, hmode] at h
  cases hm : moverAt cx pt o <;> cases a <;>
    simp_all [transition, Area.mayBePost, Mover.Advances]

/-- What may be requested at an operation in static mode: that a loop is broken, or a yield behind it,
but never behind a begin marker. -/
def Unconditional (prog : Program) (o : OpId) (kind : BlockKind) : Prop :=
  kind = .loopBreak ∨ kind = .static ∧ prog.kind o ≠ .library .atomicBegin

structure Numbered (prog : Program) (first : OpId) (requests : List BlockStart) : Prop where
  nonempty : requests ≠ []
  zero : ∀ r ∈ requests, r.id = 0 → r.op = first
  kind : ∀ r ∈ requests, Unconditional prog r.op r.kind

theorem Numbered.file {prog : Program} {first o : OpId} {b : BlockStarts} {kind : BlockKind}
    {placement : Placement} {sources : List OpId} (h : Numbered prog first (b.ofThread t))
    (hkind : Unconditional prog o kind) :
    Numbered prog first ((b.file t o kind placement sources).1.ofThread t) := by
  constructor
  · intro hnil
    have hops := @ops_file b t o kind placement sources
    rw [hnil] at hops
    split at hops <;> simp_all [h.nonempty]
  · intro r hr hid
    rcases mem_ofThread_file hr with ⟨-, rfl⟩ | ⟨hr, -⟩
    · rw [op_after]
      rcases id_after with hlen | ⟨old, hold, hsame⟩
      · rw [hlen] at hid
        exact absurd (List.length_eq_zero_iff.mp hid) h.nonempty
      · rw [hsame] at hid
        rw [← op_of_get? hold]
        exact h.zero old (List.mem_of_find?_eq_some hold) hid
    · exact h.zero r hr hid
  · exact forall_ofThread_file h.kind hkind

theorem Numbered.files {prog : Program} {first : OpId} {b b' : BlockStarts}
    {allowed : OpId → BlockKind → Placement → Prop} (h : Numbered prog first (b.ofThread t))
    (hallowed : ∀ o kind placement, allowed o kind placement → Unconditional prog o kind)
    (hfiles : Relation.ReflTransGen (Files t allowed) b b') :
    Numbered prog first (b'.ofThread t) := by
  apply files_keep _ hfiles h
  intro b o kind placement sources hb ho
  exact hb.file (hallowed o kind placement ho)

theorem unconditional_of_demand (hmode : pt.mode = .static) (hscanned : Scanned cx pt) {o x : OpId}
    {a : Area} {kind : BlockKind} {placement : Placement} (hx : x ∈ requestOps cx pt o)
    (hdemand : demandAt cx pt o a = some (kind, placement)) : Unconditional cx.prog x kind := by
  obtain ⟨rfl, hm⟩ := demandAt_static hmode hdemand
  refine .inr ⟨rfl, fun hbegin => ?_⟩
  rcases hscanned.requestOps_cases hx with ⟨hopen, rfl⟩ | hend
  · rw [moverAt, hopen] at hm
    simp [movable_of_marker (.inr (.inr hbegin)), Mover.Advances] at hm
  · simp [hbegin] at hend

theorem processor_numbered (hmode : pt.mode = .static) (hscanned : Scanned cx pt) (first : OpId) :
    (processor cx pt t).Respects fun s s' =>
      Numbered cx.prog first (s.requests.ofThread t) →
        Numbered cx.prog first (s'.requests.ofThread t) where
  refl _ := id
  trans h k := k ∘ h
  visit hv h := h.files (fun _ _ _ ho => unconditional_of_demand hmode hscanned ho.1 ho.2)
    (visit_files hv)
  afterCall h := (Action.pure_ok.mp h).2 ▸ id
  afterReturn h := (Action.pure_ok.mp h).2 ▸ id
  revisit hr h := by
    refine h.files ?_ (revisit_files hr).1
    rintro o kind placement ⟨-, rfl, -⟩
    exact .inl (by simp [revisitKind, hmode])

theorem Kept.numbered {w₀ w : Walk Tracking} (h : Kept cx pt t w₀ w) (hmode : pt.mode = .static)
    (hscanned : Scanned cx pt) :
    ∃ first, (cx.prog.firstPoint (cx.threads.get t).proc).op? cx.prog = some first ∧
      Numbered cx.prog first (pt.requests.ofThread t) := by
  obtain ⟨first, s, hfirst, hfile, hwalk⟩ := walkThread_cases h.walked
  refine ⟨first, hfirst, ?_⟩
  have hstart : Numbered cx.prog first (s.requests.ofThread t) := by
    obtain ⟨sources, hs⟩ := file_first h.unrequested hfile
    rw [hs]
    constructor <;> simp [Unconditional]
  rw [h.requests]
  exact Walk.walk_respects (processor_numbered hmode hscanned first) hwalk hstart

def Asked (cx : Analysis) (t : ThreadId) (q : Point) (b : BlockStarts) : Prop :=
  ∃ o, q.op? cx.prog = some o ∧ Meets t .loopBreak b o

theorem Asked.grows {b b' : BlockStarts} (h : Asked cx t q b) (hg : b.Grows b') : Asked cx t q b' := by
  obtain ⟨o, ho, hmeets⟩ := h
  exact ⟨o, ho, hmeets.grows hg⟩

theorem revisit_asks {a : Area} {edge : Edge} {s s' : Tracking} {u : Unit} (ha : a ≠ .pre)
    (h : revisit cx pt t q a edge s = .ok u s') : Asked cx t q s'.requests := by
  unfold revisit at h
  rw [if_pos ha] at h
  obtain ⟨o, v, hcheck, hfile⟩ := Action.bind_ok.mp h
  obtain ⟨ho, rfl⟩ := Action.check_ok.mp hcheck
  obtain ⟨-, -, r, hr, -⟩ := file_ok hfile (by unfold revisitKind; split <;> simp)
  exact ⟨o, Checked.index_ok.mp ho, r, hr, Nat.zero_le _⟩

theorem reach_asks {a recorded : Area} {b : Bool} {v u : Walk Tracking}
    (h : Walk.reach cx.prog (processor cx pt t) q a v = .ok b u)
    (hrecorded : v.areas.get? q = some recorded) (ha : a ≠ .pre)
    (hne : recorded.join a ≠ recorded) : Asked cx t q u.state.requests := by
  rcases Walk.reach_cases h with ⟨-, -, -, r, hr, hjoin⟩ |
    ⟨-, area, s, ops, out, pending, s', hadmits, -, hrun, rfl⟩
  · cases hrecorded.symm.trans hr
    exact absurd hjoin hne
  · have hs : Asked cx t q s.requests := by
      cases hadmits with
      | absent hr => cases hrecorded.symm.trans hr
      | enlarged _ _ hrevisit => exact revisit_asks ha hrevisit
      | fresh hr hjoin =>
        cases hrecorded.symm.trans hr
        exact absurd hjoin hne
    exact hs.grows (Walk.runBlock_respects processor_respects hrun).requests

/-- A step leaves a point before the commit point, or the point is asked for. -/
theorem moves_ask_once {v u : Walk Tracking} (h : Walk.Moves cx.prog (processor cx pt t) v u)
    (hpre : v.areas.get? q = some .pre) :
    u.areas.get? q = some .pre ∨ Asked cx t q u.state.requests := by
  obtain ⟨progress, h⟩ := h
  rcases Walk.step_cases h with ⟨-, -, rfl⟩ | ⟨f, rest, -, -, -, rfl⟩ |
    ⟨f, rest, p, pending, b, -, -, hreach, -⟩
  · exact .inl hpre
  · exact .inl hpre
  by_cases hjoin : p = q ∧ Area.pre.join f.out ≠ .pre
  · obtain ⟨rfl, hne⟩ := hjoin
    refine .inr (reach_asks hreach hpre ?_ hne)
    intro hout
    exact hne (by rw [hout]; rfl)
  · left
    rcases Walk.reach_cases hreach with ⟨-, rfl, -⟩ |
      ⟨-, area, s, ops, out, next, s', hadmits, -, -, rfl⟩
    · exact hpre
    · by_cases hp : q = p
      · subst hp
        have hsame : Area.pre.join f.out = .pre := by_contra fun hne => hjoin ⟨rfl, hne⟩
        have harea : area = .pre := by
          cases hadmits with
          | absent hr => cases hpre.symm.trans hr
          | enlarged hr hne => cases hpre.symm.trans hr; exact absurd hsame hne
          | fresh hr => cases hpre.symm.trans hr; rfl
        simp [Walk.explored, Table.get?_put, harea]
      · simpa [Walk.explored, Table.get?_put, hp] using hpre

theorem moves_ask {v u : Walk Tracking}
    (h : Relation.ReflTransGen (Walk.Moves cx.prog (processor cx pt t)) v u)
    (hpre : v.areas.get? q = some .pre) :
    u.areas.get? q = some .pre ∨ Asked cx t q u.state.requests := by
  induction h with
  | refl => exact .inl hpre
  | tail _ hlast ih =>
    rcases ih with hpre | hasked
    · exact moves_ask_once hlast hpre
    · exact .inr (hasked.grows (Walk.Moves.respects processor_respects hlast).requests)

def Starts (cx : Analysis) (pt : PhaseTracker) (t : ThreadId) (w₁ : Walk Tracking) : Prop :=
  ∃ w₀ w o s, Kept cx pt t w₀ w ∧
    (cx.prog.firstPoint (cx.threads.get t).proc).op? cx.prog = some o ∧
    file cx t o .loopBreak .before [] w₀.state = .ok () s ∧ w₁ = { w₀ with state := s }

theorem Starts.walks {w₁ : Walk Tracking} (h : Starts cx pt t w₁) : ∃ w₀ w, Kept cx pt t w₀ w ∧
    cx.prog.walk (processor cx pt t) (cx.prog.firstPoint (cx.threads.get t).proc) .pre w₁ =
      .ok () w := by
  obtain ⟨w₀, w, o, s, hkept, ho, hfile, rfl⟩ := h
  obtain ⟨o', s', ho', hfile', hwalk⟩ := walkThread_cases hkept.walked
  obtain rfl := Option.some.inj (ho.symm.trans ho')
  rw [hfile] at hfile'
  cases hfile'
  exact ⟨w₀, w, hkept, hwalk⟩

/-- The walk of the thread changes its mind about a point: it records the point before the commit point
at first, or it reaches the point past the commit point in an area that enlarges the recorded one. -/
inductive Reconsidered (cx : Analysis) (pt : PhaseTracker) (t : ThreadId) (q : Point) : Prop where
  | before {w₁ history v} : Starts cx pt t w₁ →
      Walk.Course cx.prog (processor cx pt t) (cx.prog.firstPoint (cx.threads.get t).proc) .pre w₁
        history v →
      v.areas.get? q = some .pre → Reconsidered cx pt t q
  | enlarged {w₁ a history v recorded} : Starts cx pt t w₁ →
      Walk.Arrives cx.prog (processor cx pt t) (cx.prog.firstPoint (cx.threads.get t).proc) .pre w₁
        q a history v →
      v.areas.get? q = some recorded → a ≠ .pre → recorded.join a ≠ recorded →
      Reconsidered cx pt t q

/-- A point is asked for if it ends up past the commit point and the walk did not find it there. -/
theorem Reconsidered.asked (h : Reconsidered cx pt t q) {w₀ w : Walk Tracking}
    (hkept : Kept cx pt t w₀ w) (hq : w.Settled .post q) : Asked cx t q pt.requests := by
  have hback : ∀ {w₀' w'}, Kept cx pt t w₀' w' → Asked cx t q w'.state.requests →
      Asked cx t q pt.requests := by
    rintro w₀' w' hkept' ⟨o, ho, r, hr, hle⟩
    refine ⟨o, ho, r, ?_, hle⟩
    rw [get?, hkept'.requests]
    exact hr
  cases h with
  | before hstarts hcourse hpre =>
    obtain ⟨w₀', w', hkept', hwalk⟩ := hstarts.walks
    rcases moves_ask (hcourse.finishes hwalk) hpre with hpre | hasked
    · obtain ⟨-, b, hb, hle⟩ := hq
      have hareas : w'.areas = w.areas :=
        Option.some.inj (hkept'.recorded.symm.trans hkept.recorded)
      rw [hareas, hb] at hpre
      cases hpre
      cases hle
    · exact hback hkept' hasked
  | enlarged hstarts harrives hrecorded ha hne =>
    obtain ⟨w₀', w', hkept', hwalk⟩ := hstarts.walks
    obtain ⟨b, u, hreach, hmoves⟩ := harrives.finishes hwalk
    exact hback hkept' ((reach_asks hreach hrecorded ha hne).grows
      (Walk.moves_respects processor_respects hmoves).requests)

/-- A cycle with a point that is asked for yields there, unless the request is the first one. -/
theorem Route.yields_of_asked (hmode : pt.mode = .static) (hst : pt.requests.StaticAfter)
    {first : OpId} (hnumbered : Numbered cx.prog first (pt.requests.ofThread t))
    (hroute : Route cx pt t p ps vs r) (hq : q ∈ ps) (hasked : Asked cx t q pt.requests)
    (hne : q.op? cx.prog ≠ some first) :
    .yields ∈ vs.flatMap (sights cx pt (Plan.ofThread cx pt t)) := by
  obtain ⟨o, ho, request, hget, -⟩ := hasked
  obtain ⟨v, hv, rfl, hlast⟩ := hroute.head_mem hq ho
  refine List.mem_flatMap.mpr ⟨v, hv, ?_⟩
  have hmem : request ∈ pt.requests.ofThread t := List.mem_of_find?_eq_some hget
  have hop : request.op = v.op := op_of_get? hget
  rcases hnumbered.kind request hmem with hk | ⟨hk, hbegin⟩
  · have hid : request.id ≠ 0 := by
      intro hzero
      rw [ho, ← hop, hnumbered.zero request hmem hzero] at hne
      exact hne rfl
    have hhead : ((Plan.ofThread cx pt t).yields v.op .before).head? = some .yields :=
      yields_of_actions hget (by simp [Plan.actions, hk, hmode, hid])
    simp [sights, List.mem_of_mem_head? hhead]
  · have hafter := hst t v.op request hget hk
    rw [hop] at hbegin
    rw [requestOps, opens?_of_ne hbegin, List.mem_singleton] at hlast
    have hhead : ((Plan.ofThread cx pt t).yields v.op .after).head? = some .yields :=
      yields_of_actions hget (by simp [Plan.actions, hk, hafter])
    simp [sights, hlast, List.mem_of_mem_head? hhead]

end PhaseTracker

open PhaseTracker in
/-- A cycle of a thread on which the tracker came past the commit point yields, if something on it moves
to the right or not at all, or if the walk had to reconsider one of its points other than the first
point of the thread. -/
theorem committed_cycles_yield {prog : Program} (hbuilt : prog.Built) {mayAlias : AliasOracle}
    {red : Reduction} (h : (prog.reduceWith mayAlias .static).result = .ok red) {plan : ThreadPlan}
    (hplan : plan ∈ red.plan.threads) {p : Point} {ps : List Point} {vs : List Visit}
    (hcycle : Route red.analysis red.tracker plan.thread p ps vs p) {v : Visit} (hv : v ∈ vs)
    {q : Point} {rest : List OpId} {a : Area}
    (harrives : Arrives red.analysis red.tracker plan.thread q (v.op :: rest) a)
    (ha : a.mayBePost)
    (hbroken : (∃ v ∈ vs, (moverAt red.analysis red.tracker v.op).Advances) ∨
      ∃ q ∈ ps, q ≠ prog.firstPoint (red.analysis.threads.get plan.thread).proc ∧
        Reconsidered red.analysis red.tracker plan.thread q) :
    .yields ∈ vs.flatMap (sights red.analysis red.tracker plan) := by
  obtain ⟨hcx, checks, n, hrun, hbuild⟩ := Program.reduceWith_ok h
  rw [hbuild] at hplan
  obtain ⟨t, hmem, rfl⟩ := List.mem_map.mp hplan
  obtain ⟨hstatic, hmode, -⟩ := run_finished hrun
  have hst := hstatic (by intro u x r hr; simp [BlockStarts.get?, BlockStarts.ofThread] at hr)
  obtain ⟨w₀, w, hkept⟩ := run_kept hrun hmem
  obtain rfl := (Program.analyze_ok hcx).prog_eq
  have hc := hbuilt.coherent.1
  rcases hcycle.committed hkept hmode hst hc hv harrives ha with hy | ⟨hm, hsettled⟩
  · exact hy
  rcases hbroken with ⟨x, hx, hadvances⟩ | ⟨x, hx, hne, hreconsidered⟩
  · exact absurd hadvances (hm x hx)
  · obtain ⟨first, hfirst, hnumbered⟩ := hkept.numbered hmode (scanned_of_run hrun)
    refine hcycle.yields_of_asked hmode hst hnumbered hx (hreconsidered.asked hkept (hsettled x hx)) ?_
    intro hop
    apply hne
    exact hc.point_ext hop hfirst

/-- A thread that comes to a loop before its commit point and creates a thread each time around. -/
def BuildStep.creatingLoopSteps : List BuildStep :=
  [.proc "main", .proc "worker", .block 0 "entry", .block 0 "loop", .block 1 "entry", .op 0 .local,
    .branch 0 [1], .op 1 (.library (.threadCreate 1)), .branch 1 [1], .op 2 (.terminator .ret)]

def Program.creatingLoop : Program :=
  ((BuildStep.applyAll {} BuildStep.creatingLoopSteps).toOption.getD default).1

theorem Program.built_creatingLoop : Program.creatingLoop.Built := by
  refine .inl ⟨BuildStep.creatingLoopSteps, .creatingLoop, [0, 1, 0, 1, 2, 0, 1, 2, 3, 4], ?_, ?_⟩
  · decide +kernel
  · decide +kernel

def Reduction.creatingLoop : Reduction :=
  (Program.creatingLoop.reduce .static).result.toOption.getD default

def ThreadPlan.creatingLoop : ThreadPlan :=
  Plan.ofThread Reduction.creatingLoop.analysis Reduction.creatingLoop.tracker 0

namespace PhaseTracker

namespace CreatingLoop

def steps : Processor Tracking :=
  processor Reduction.creatingLoop.analysis Reduction.creatingLoop.tracker 0

def fresh : Walk Tracking := { state := { requests := {}, opAreas := {}, strayEnds := [] } }

def begun : Walk Tracking :=
  { fresh with
    state := Action.final (file Reduction.creatingLoop.analysis 0 0 .loopBreak .before [] fresh.state) }

def entered : Walk Tracking :=
  Action.final (Walk.reach Reduction.creatingLoop.analysis.prog steps ⟨0, 0⟩ .pre begun)

theorem kept : Kept Reduction.creatingLoop.analysis Reduction.creatingLoop.tracker 0 fresh
    (Action.final (walkThread Reduction.creatingLoop.analysis Reduction.creatingLoop.tracker 0 fresh))
    where
  stack := rfl
  visited := rfl
  areas := rfl
  unrequested := rfl
  walked := Action.eq_ok (by decide +kernel)
  requests := by decide +kernel
  recorded := by decide +kernel

theorem starts : Starts Reduction.creatingLoop.analysis Reduction.creatingLoop.tracker 0 begun :=
  ⟨fresh, _, 0, _, kept, by decide +kernel, Action.eq_ok rfl, rfl⟩

theorem reconsidered :
    Reconsidered Reduction.creatingLoop.analysis Reduction.creatingLoop.tracker 0 ⟨1, 0⟩ := by
  have hfirst : Reduction.creatingLoop.analysis.prog.firstPoint
      (Reduction.creatingLoop.analysis.threads.get 0).proc = ⟨0, 0⟩ := by decide +kernel
  have hreach : Walk.reach Reduction.creatingLoop.analysis.prog steps ⟨0, 0⟩ .pre begun =
      .ok true entered := Action.eq_ok (by decide +kernel)
  have hstack : entered.stack = [⟨⟨0, 0⟩, [⟨1, 0⟩], .pre⟩] := by decide +kernel
  have hstep : Walk.step Reduction.creatingLoop.analysis.prog steps entered =
      .ok .explored (Action.final
        (Walk.step Reduction.creatingLoop.analysis.prog steps entered)) :=
    Action.eq_ok (by decide +kernel)
  have hcourse := Walk.Course.explore (.start hreach) hstack rfl hstep
  rw [← hfirst] at hcourse
  exact .before starts hcourse (by decide +kernel)

end CreatingLoop

end PhaseTracker

open PhaseTracker in
theorem creating_loop_is_broken :
    Program.creatingLoop.Built ∧ (Program.creatingLoop.reduce .static).result = .ok .creatingLoop ∧
      Route Reduction.creatingLoop.analysis Reduction.creatingLoop.tracker 0 ⟨1, 0⟩ [⟨1, 0⟩]
        [⟨2, 2⟩, ⟨3, 3⟩] ⟨1, 0⟩ ∧
      Sight.yields ∈ List.flatMap (sights Reduction.creatingLoop.analysis Reduction.creatingLoop.tracker
        .creatingLoop) [⟨2, 2⟩, ⟨3, 3⟩] := by
  have hok : (Program.creatingLoop.reduce .static).result = .ok .creatingLoop :=
    Checked.ok_of_toOption (by decide +kernel)
  have hplan : ThreadPlan.creatingLoop ∈ Reduction.creatingLoop.plan.threads := by decide +kernel
  have hops : (⟨1, 0⟩ : Point).ops? Reduction.creatingLoop.analysis.prog = some [2, 3] := by
    decide +kernel
  have hpasses : Passes Reduction.creatingLoop.analysis.prog 2 := by
    unfold Passes
    decide +kernel
  have hcycle : Route Reduction.creatingLoop.analysis Reduction.creatingLoop.tracker 0 ⟨1, 0⟩
      [⟨1, 0⟩] [⟨2, 2⟩, ⟨3, 3⟩] ⟨1, 0⟩ :=
    .around hops hpasses (by decide +kernel) (by decide +kernel)
  have harrives : Arrives Reduction.creatingLoop.analysis Reduction.creatingLoop.tracker 0 ⟨1, 0⟩
      [2, 3] .top := .enter (by decide +kernel) (Area.le_refl _) hops
  refine ⟨Program.built_creatingLoop, hok, hcycle, ?_⟩
  exact committed_cycles_yield (v := ⟨2, 2⟩) Program.built_creatingLoop hok hplan hcycle
    List.mem_cons_self harrives rfl
    (.inr ⟨⟨1, 0⟩, List.mem_singleton_self _, by decide +kernel, CreatingLoop.reconsidered⟩)

def BuildStep.lateLoopSteps : List BuildStep :=
  [.proc "main", .proc "worker", .block 0 "entry", .block 0 "loop", .block 1 "entry",
    .op 0 (.library (.threadCreate 1)), .branch 0 [1], .op 1 .local, .branch 1 [1],
    .op 2 (.terminator .ret)]

def Program.lateLoop : Program :=
  ((BuildStep.applyAll {} BuildStep.lateLoopSteps).toOption.getD default).1

theorem Program.built_lateLoop : Program.lateLoop.Built := by
  refine .inl ⟨BuildStep.lateLoopSteps, .lateLoop, [0, 1, 0, 1, 2, 0, 1, 2, 3, 4], ?_, ?_⟩
  · decide +kernel
  · decide +kernel

def Reduction.lateLoop : Reduction := (Program.lateLoop.reduce .static).result.toOption.getD default

def ThreadPlan.lateLoop : ThreadPlan :=
  Plan.ofThread Reduction.lateLoop.analysis Reduction.lateLoop.tracker 0

open PhaseTracker in
/-- A loop that is first reached past the commit point, and in which nothing moves to the right, is
left as it is. -/
theorem late_loop_is_not_broken :
    ¬ ∀ (prog : Program) (red : Reduction), prog.Built →
      (prog.reduce .static).result = .ok red → ∀ plan ∈ red.plan.threads,
      ∀ (p : Point) (ps : List Point) (vs : List Visit),
        Route red.analysis red.tracker plan.thread p ps vs p →
        ∀ v ∈ vs, ∀ (q : Point) (rest : List OpId) (a : Area),
          Arrives red.analysis red.tracker plan.thread q (v.op :: rest) a → a.mayBePost →
          .yields ∈ vs.flatMap (sights red.analysis red.tracker plan) := by
  intro h
  have hok : (Program.lateLoop.reduce .static).result = .ok .lateLoop :=
    Checked.ok_of_toOption (by decide +kernel)
  have hops : (⟨1, 0⟩ : Point).ops? Reduction.lateLoop.analysis.prog = some [2, 3] := by
    decide +kernel
  have hpasses : Passes Reduction.lateLoop.analysis.prog 2 := by
    unfold Passes
    decide +kernel
  have hcycle : Route Reduction.lateLoop.analysis Reduction.lateLoop.tracker 0 ⟨1, 0⟩ [⟨1, 0⟩]
      [⟨2, 2⟩, ⟨3, 3⟩] ⟨1, 0⟩ :=
    .around hops hpasses (by decide +kernel) (by decide +kernel)
  have harrives : Arrives Reduction.lateLoop.analysis Reduction.lateLoop.tracker 0 ⟨1, 0⟩ [2, 3]
      .post := .enter (by decide +kernel) (Area.le_refl _) hops
  have hyields := h .lateLoop .lateLoop Program.built_lateLoop hok .lateLoop (by decide +kernel) _ _ _
    hcycle ⟨2, 2⟩ List.mem_cons_self ⟨1, 0⟩ [3] .post harrives rfl
  exact absurd hyields (by decide +kernel)

def BuildStep.firstLoopSteps : List BuildStep :=
  [.proc "main", .proc "worker", .block 0 "loop", .block 1 "entry",
    .op 0 (.library (.threadCreate 1)), .branch 0 [0], .op 1 (.terminator .ret)]

def Program.firstLoop : Program :=
  ((BuildStep.applyAll {} BuildStep.firstLoopSteps).toOption.getD default).1

theorem Program.built_firstLoop : Program.firstLoop.Built := by
  refine .inl ⟨BuildStep.firstLoopSteps, .firstLoop, [0, 1, 0, 1, 0, 1, 2], ?_, ?_⟩
  · decide +kernel
  · decide +kernel

def Reduction.firstLoop : Reduction := (Program.firstLoop.reduce .static).result.toOption.getD default

open PhaseTracker in
/-- Nor is a loop at the first point of the thread broken: the walk comes back to it past the commit
point, but the request that it files there has number 0. -/
theorem first_loop_is_not_broken :
    Program.firstLoop.Built ∧ ∃ red, (Program.firstLoop.reduce .static).result = .ok red ∧
      ∃ plan ∈ red.plan.threads,
        Route red.analysis red.tracker plan.thread ⟨0, 0⟩ [⟨0, 0⟩] [⟨0, 0⟩, ⟨1, 1⟩] ⟨0, 0⟩ ∧
        Arrives red.analysis red.tracker plan.thread ⟨0, 0⟩ [0, 1] .top ∧
        Sight.yields ∉ List.flatMap (sights red.analysis red.tracker plan) [⟨0, 0⟩, ⟨1, 1⟩] := by
  have hok : (Program.firstLoop.reduce .static).result = .ok .firstLoop :=
    Checked.ok_of_toOption (by decide +kernel)
  have hops : (⟨0, 0⟩ : Point).ops? Reduction.firstLoop.analysis.prog = some [0, 1] := by
    decide +kernel
  have hpasses : Passes Reduction.firstLoop.analysis.prog 0 := by
    unfold Passes
    decide +kernel
  refine ⟨Program.built_firstLoop, _, hok,
    Plan.ofThread Reduction.firstLoop.analysis Reduction.firstLoop.tracker 0, by decide +kernel,
    ?_, ?_, ?_⟩
  · exact .around hops hpasses (by decide +kernel) (by decide +kernel)
  · exact .enter (by decide +kernel) (Area.le_refl _) hops
  · decide +kernel

end YieldPlan
