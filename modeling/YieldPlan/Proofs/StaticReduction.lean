import YieldPlan.Proofs.ThreadRuns

/-! A block between two yields is reducible if no right or non mover follows a left or non mover in
it. The yield that a mover asks for stands after the mover, so a block may hold one mover too many,
as its last step, right before the yield that ends it. Apart from that step every block of a static
plan is reducible. -/

namespace YieldPlan

inductive Sight where
  | moves (m : Mover)
  | yields
  deriving DecidableEq, Repr

/-- Movers after which the thread is past its commit point. -/
def Mover.Commits (m : Mover) : Prop := m = .left ∨ m = .none

/-- Movers that have to come before the commit point or at it. -/
def Mover.Advances (m : Mover) : Prop := m = .right ∨ m = .none

/-- Movers to the right, at most one that does not move, then movers to the left. -/
def Reducible (ms : List Mover) : Prop :=
  ∃ rights middle lefts, ms = rights ++ middle ++ lefts ∧
    (∀ m ∈ rights, m = .right ∨ m = .both) ∧ (middle = [] ∨ middle = [.none]) ∧
    ∀ m ∈ lefts, m = .left ∨ m = .both

theorem reducible_cons_both {m : Mover} {ms : List Mover} (hm : m = .right ∨ m = .both)
    (h : Reducible ms) : Reducible (m :: ms) := by
  obtain ⟨rs, ns, ls, rfl, hr, hn, hl⟩ := h
  exact ⟨m :: rs, ns, ls, rfl, List.forall_mem_cons.mpr ⟨hm, hr⟩, hn, hl⟩

theorem reducible_of_pairwise {ms : List Mover}
    (h : ms.Pairwise fun a b => ¬ (a.Commits ∧ b.Advances)) : Reducible ms := by
  induction ms with
  | nil => exact ⟨[], [], [], rfl, by simp, .inl rfl, by simp⟩
  | cons m ms ih =>
    obtain ⟨hm, hms⟩ := List.pairwise_cons.mp h
    have hlefts : m.Commits → ∀ x ∈ ms, x = .left ∨ x = .both := by
      intro hc x hx
      have := hm x hx
      cases x <;> simp_all [Mover.Advances]
    cases m with
    | both => exact reducible_cons_both (.inr rfl) (ih hms)
    | right => exact reducible_cons_both (.inl rfl) (ih hms)
    | none =>
      exact ⟨[], [.none], ms, rfl, by simp, .inr rfl, hlefts (.inr rfl)⟩
    | left =>
      refine ⟨[], [], .left :: ms, rfl, by simp, .inl rfl, ?_⟩
      exact List.forall_mem_cons.mpr ⟨.inl rfl, hlefts (.inl rfl)⟩

theorem pairwise_of_reducible {ms : List Mover} (h : Reducible ms) :
    ms.Pairwise fun a b => ¬ (a.Commits ∧ b.Advances) := by
  obtain ⟨rs, ns, ls, rfl, hr, hn, hl⟩ := h
  have hrights : ∀ m ∈ rs, ¬ m.Commits := by
    intro m hm
    rcases hr m hm with rfl | rfl <;> simp [Mover.Commits]
  have hlefts : ∀ m ∈ ls, ¬ m.Advances := by
    intro m hm
    rcases hl m hm with rfl | rfl <;> simp [Mover.Advances]
  have hr' : rs.Pairwise fun a b => ¬ (a.Commits ∧ b.Advances) :=
    List.pairwise_of_forall_mem_list fun a ha _ _ hab => hrights a ha hab.1
  have hl' : ls.Pairwise fun a b => ¬ (a.Commits ∧ b.Advances) :=
    List.pairwise_of_forall_mem_list fun _ _ b hb hab => hlefts b hb hab.2
  have hn' : ns.Pairwise fun a b => ¬ (a.Commits ∧ b.Advances) := by
    rcases hn with rfl | rfl <;> simp
  refine List.pairwise_append.mpr ⟨List.pairwise_append.mpr ⟨hr', hn', ?_⟩, hl', ?_⟩
  · exact fun a ha _ _ hab => hrights a ha hab.1
  · exact fun _ _ b hb hab => hlefts b hb hab.2

/-- Some mover commits and no yield follows it. -/
def Committed (es : List Sight) : Prop :=
  ∃ xs m ys, es = xs ++ .moves m :: ys ∧ m.Commits ∧ .yields ∉ ys

theorem committed_append {es fs : List Sight} :
    Committed (es ++ fs) ↔ Committed fs ∨ Committed es ∧ .yields ∉ fs := by
  constructor
  · rintro ⟨xs, m, ys, h, hm, hy⟩
    rcases List.append_eq_append_iff.mp h with ⟨as, rfl, rfl⟩ | ⟨bs, rfl, hbs⟩
    · exact .inl ⟨as, m, ys, rfl, hm, hy⟩
    · cases bs with
      | nil => exact .inl ⟨[], m, ys, by simpa using hbs.symm, hm, hy⟩
      | cons b bs =>
        obtain ⟨rfl, rfl⟩ := List.cons.inj hbs
        obtain ⟨hb, hf⟩ := not_or.mp fun hc => hy (List.mem_append.mpr hc)
        exact .inr ⟨⟨xs, m, bs, rfl, hm, hb⟩, hf⟩
  · rintro (⟨xs, m, ys, rfl, hm, hy⟩ | ⟨⟨xs, m, ys, rfl, hm, hy⟩, hf⟩)
    · exact ⟨es ++ xs, m, ys, by simp, hm, hy⟩
    · exact ⟨xs, m, ys ++ fs, by simp, hm, by simp [hy, hf]⟩

/-- A mover that comes too late is followed by a yield at once. -/
def Guarded (es : List Sight) : Prop :=
  ∀ xs m ys, es = xs ++ .moves m :: ys → m.Advances → Committed xs → ys.head? = some .yields

theorem guarded_append {es fs : List Sight} (he : Guarded es)
    (hf : ∀ xs m ys, fs = xs ++ .moves m :: ys → m.Advances → Committed (es ++ xs) →
      ys.head? = some .yields) : Guarded (es ++ fs) := by
  intro xs m ys h hm hc
  rcases List.append_eq_append_iff.mp h with ⟨as, rfl, rfl⟩ | ⟨bs, rfl, hbs⟩
  · exact hf as m ys rfl hm hc
  · cases bs with
    | nil => exact hf [] m ys (by simpa using hbs.symm) hm (by simpa using hc)
    | cons b bs =>
      obtain ⟨rfl, rfl⟩ := List.cons.inj hbs
      have := he xs m bs rfl hm hc
      cases bs with
      | nil => simp at this
      | cons => simpa using this

def Quiet (es : List Sight) : Prop := ∀ m, .moves m ∈ es → m = .both

theorem Quiet.guarded {es : List Sight} (h : Quiet es) : Guarded es := by
  rintro xs m ys rfl hm -
  rw [h m (by simp)] at hm
  simp [Mover.Advances] at hm

theorem Quiet.not_committed {es : List Sight} (h : Quiet es) : ¬ Committed es := by
  rintro ⟨xs, m, ys, rfl, hm, -⟩
  rw [h m (by simp)] at hm
  simp [Mover.Commits] at hm

theorem Quiet.append_guarded {es fs : List Sight} (h : Quiet es) (hf : Guarded fs) :
    Guarded (es ++ fs) := by
  refine guarded_append h.guarded fun xs m ys hsplit hm hc => ?_
  rcases committed_append.mp hc with hc | hc
  · exact hf xs m ys hsplit hm hc
  · exact absurd hc.1 h.not_committed

private theorem exists_late {ms : List Mover}
    (h : ¬ ms.Pairwise fun a b => ¬ (a.Commits ∧ b.Advances)) :
    ∃ as a bs b cs, ms = as ++ a :: bs ++ b :: cs ∧ a.Commits ∧ b.Advances := by
  induction ms with
  | nil => simp at h
  | cons a ms ih =>
    rw [List.pairwise_cons, not_and_or] at h
    rcases h with h | h
    · simp only [not_forall, not_not] at h
      obtain ⟨b, hb, hab⟩ := h
      obtain ⟨bs, cs, rfl⟩ := List.append_of_mem hb
      exact ⟨[], a, bs, b, cs, rfl, hab⟩
    · obtain ⟨as, x, bs, b, cs, rfl, hx⟩ := ih h
      exact ⟨a :: as, x, bs, b, cs, rfl, hx⟩

theorem Guarded.reducible {es xs zs : List Sight} {ms : List Mover} (h : Guarded es)
    (he : es = xs ++ ms.map .moves ++ zs) :
    Reducible ms ∨ Reducible ms.dropLast ∧ zs.head? = some .yields := by
  -- A pair out of order puts the later mover at the end of the part.
  have hlast : ∀ as a bs b cs, ms = as ++ a :: bs ++ b :: cs → a.Commits → b.Advances →
      cs = [] ∧ zs.head? = some .yields := by
    rintro as a bs b cs rfl ha hb
    have hc : Committed (xs ++ (as ++ a :: bs).map .moves) := by
      refine ⟨xs ++ as.map .moves, a, bs.map .moves, by simp, ha, by simp⟩
    have := h _ b (cs.map .moves ++ zs) (by rw [he]; simp) hb hc
    cases cs with
    | nil => exact ⟨rfl, by simpa using this⟩
    | cons => simp at this
  by_cases hp : ms.Pairwise fun a b => ¬ (a.Commits ∧ b.Advances)
  · exact .inl (reducible_of_pairwise hp)
  · obtain ⟨as, a, bs, b, cs, hms, ha, hb⟩ := exists_late hp
    obtain ⟨rfl, hz⟩ := hlast as a bs b cs hms ha hb
    refine .inr ⟨reducible_of_pairwise ?_, hz⟩
    rw [hms, List.dropLast_concat]
    by_contra hd
    obtain ⟨as', a', bs', b', cs', hms', ha', hb'⟩ := exists_late hd
    have := (hlast as' a' bs' b' (cs' ++ [b]) (by rw [hms, hms']; simp) ha' hb').1
    simp at this

/-- The yields that a plan puts on one side of an operation. -/
def ThreadPlan.yields (plan : ThreadPlan) (o : OpId) (side : Placement) : List Sight :=
  (plan.steps.filter fun s => s.op = o && s.placement = side && s.action = .yield).map
    fun _ => .yields

theorem ThreadPlan.eq_of_mem_yields {plan : ThreadPlan} {o : OpId} {side : Placement} {e : Sight}
    (h : e ∈ plan.yields o side) : e = .yields := by
  obtain ⟨_, -, rfl⟩ := List.mem_map.mp h
  rfl

theorem ThreadPlan.head?_yields {plan : ThreadPlan} {s : PlanStep} (h : s ∈ plan.steps)
    (ha : s.action = .yield) : (plan.yields s.op s.placement).head? = some .yields := by
  have hmem : Sight.yields ∈ plan.yields s.op s.placement :=
    List.mem_map.mpr ⟨s, List.mem_filter.mpr ⟨h, by simp [ha]⟩, rfl⟩
  cases hl : plan.yields s.op s.placement with
  | nil => rw [hl] at hmem; cases hmem
  | cons e es =>
    have : e = .yields := eq_of_mem_yields (by rw [hl]; exact List.mem_cons_self)
    rw [this]
    rfl

namespace PhaseTracker

/-- What a thread with a plan shows at a visit: the yields planned before it, the mover, the yield
that a yield call is, and the yields planned after it. -/
def sights (cx : Analysis) (pt : PhaseTracker) (plan : ThreadPlan) (v : Visit) : List Sight :=
  plan.yields v.op .before ++ .moves (moverAt cx pt v.op) ::
    ((if cx.prog.kind v.op = .library .yield then [.yields] else []) ++ plan.yields v.last .after)

variable {cx : Analysis} {pt : PhaseTracker} {t : ThreadId} {plan : ThreadPlan}

private theorem split_unique {bs tail xs ys : List Sight} {m m' : Mover}
    (hb : ∀ e ∈ bs, e = .yields) (ht : ∀ e ∈ tail, e = .yields)
    (h : bs ++ .moves m :: tail = xs ++ .moves m' :: ys) : xs = bs ∧ m' = m ∧ ys = tail := by
  induction bs generalizing xs with
  | nil =>
    cases xs with
    | nil => simp_all
    | cons x xs =>
      obtain ⟨-, htail⟩ := List.cons.inj h
      have := ht (.moves m') (by rw [htail]; simp)
      cases this
  | cons b bs ih =>
    cases xs with
    | nil =>
      have hb' := hb b List.mem_cons_self
      obtain ⟨hbm, -⟩ := List.cons.inj h
      rw [hb'] at hbm
      cases hbm
    | cons x xs =>
      obtain ⟨rfl, htail⟩ := List.cons.inj h
      obtain ⟨rfl, hm, hy⟩ := ih (fun e he => hb e (List.mem_cons_of_mem _ he)) htail
      exact ⟨rfl, hm, hy⟩

theorem moverAt_yield {o : OpId} (h : cx.prog.kind o = .library .yield) :
    moverAt cx pt o = .both := by
  rw [moverAt, opens?_of_ne (by simp [h])]
  exact movable_of_marker (.inl h)

theorem quiet_sights {vs : List Visit}
    (h : ∀ v ∈ vs, cx.prog.kind v.op = .terminator .branch) :
    Quiet (vs.flatMap (sights cx pt plan)) := by
  intro m hm
  obtain ⟨v, hv, hm⟩ := List.mem_flatMap.mp hm
  have hk := h v hv
  have hboth : moverAt cx pt v.op = .both := by
    rw [moverAt, opens?_of_ne (by simp [hk])]
    simp [Movability.movable, Movability.classify, hk]
  have hno : ∀ o side, Sight.moves m ∉ plan.yields o side := by
    intro o side hmem
    cases ThreadPlan.eq_of_mem_yields hmem
  simpa [sights, hk, hboth, hno] using hm

/-- One visit keeps a path guarded and its phase honest, if a mover that comes past the commit point
has a yield planned after it. -/
theorem visit_guarded {es : List Sight} {c : Area} {v : Visit} (he : Guarded es)
    (hc : Committed es → c = .post)
    (hlate : (moverAt cx pt v.op).Advances → c = .post →
      (plan.yields v.last .after).head? = some .yields) :
    Guarded (es ++ sights cx pt plan v) ∧
      (Committed (es ++ sights cx pt plan v) → phaseAfter cx pt v.op c = .post) := by
  have hbefore : ∀ e ∈ plan.yields v.op .before, e = .yields :=
    fun _ => ThreadPlan.eq_of_mem_yields
  have hafter : ∀ e ∈ (if cx.prog.kind v.op = .library .yield then [Sight.yields] else []) ++
      plan.yields v.last .after, e = .yields := by
    intro e hmem
    rcases List.mem_append.mp hmem with h | h
    · split at h <;> simp_all
    · exact ThreadPlan.eq_of_mem_yields h
  constructor
  · refine guarded_append he ?_
    intro xs m ys hsplit hm hcom
    obtain ⟨rfl, rfl, rfl⟩ := split_unique hbefore hafter hsplit
    have hy : cx.prog.kind v.op ≠ .library .yield := by
      intro hy
      simp [moverAt_yield hy, Mover.Advances] at hm
    rw [if_neg hy]
    refine hlate hm (hc ?_)
    rcases committed_append.mp hcom with ⟨xs, m, ys, hb, -⟩ | h
    · have := hbefore (.moves m) (by rw [hb]; simp)
      cases this
    · exact h.1
  · intro hcom
    rcases committed_append.mp hcom with ⟨xs, m, ys, hsplit, hm, -⟩ | ⟨hes, hno⟩
    · obtain ⟨-, rfl, -⟩ := split_unique hbefore hafter hsplit
      have hy : cx.prog.kind v.op ≠ .library .yield := by
        intro hy
        simp [moverAt_yield hy, Mover.Commits] at hm
      rw [phaseAfter, if_neg hy]
      rcases hm with hm | hm <;> rw [hm] <;> rfl
    · have hpost := hc hes
      have hy : cx.prog.kind v.op ≠ .library .yield := by
        intro hy
        exact hno (by simp [sights, hy])
      rw [phaseAfter, if_neg hy, hpost]
      cases hm : moverAt cx pt v.op with
      | right =>
        have hhead := hlate (.inl hm) hpost
        refine absurd ?_ hno
        exact List.mem_append_right _ (List.mem_cons_of_mem _
          (List.mem_append_right _ (List.mem_of_mem_head? hhead)))
      | _ => rfl

theorem yields_of_actions {x : OpId} {r : BlockStart} (h : pt.requests.get? t x = some r)
    {side : Placement} (ha : (side, .yield) ∈ Plan.actions cx pt r) :
    ((Plan.ofThread cx pt t).yields x side).head? = some .yields := by
  have hop : r.op = x := BlockStarts.op_of_get? h
  have hmem : r ∈ pt.requests.ofThread t := List.mem_of_find?_eq_some h
  have hstep : (⟨r.op, side, r.id, .yield⟩ : PlanStep) ∈ (Plan.ofThread cx pt t).steps := by
    refine List.mem_append_right _ (List.mem_flatMap.mpr ⟨r, hmem, ?_⟩)
    exact List.mem_map.mpr ⟨_, ha, rfl⟩
  have := ThreadPlan.head?_yields hstep rfl
  rwa [hop] at this

theorem Noted.late (hmode : pt.mode = .static) (hst : pt.requests.StaticAfter) {s : Tracking}
    (hs : pt.requests.ofThread t = s.requests.ofThread t) {o x : OpId}
    (h : Noted cx pt t o .post s) (hm : (moverAt cx pt o).Advances)
    (hx : x ∈ requestOps cx pt o) :
    ((Plan.ofThread cx pt t).yields x .after).head? = some .yields := by
  have hd : demandAt cx pt o .post = some (.static, .after) := by
    rcases hm with hm | hm <;> simp [demandAt, hm, hmode, transition, Area.mayBePost]
  obtain ⟨r, hr, hle⟩ := h.requests _ _ hd x hx
  have hk : r.kind = .static := by
    cases hr : r.kind <;> simp_all [BlockKind.strength]
  have hget : pt.requests.get? t x = some r := by
    rw [BlockStarts.get?, hs]
    exact hr
  apply yields_of_actions hget
  simp [Plan.actions, hk, hst t x r hget hk]

theorem Leads.last_mem {p q : Point} {rest : List OpId} {v : Visit} (h : Leads cx pt t p rest v q) :
    v.last ∈ requestOps cx pt v.op := by
  cases h with
  | branch hk => simp [requestOps, opens?_of_ne, hk]
  | call hk => simp [requestOps, opens?_of_ne, hk]
  | ret hk => simp [requestOps, opens?_of_ne, hk]
  | region hk hat hexit =>
    simp only [requestOps, opens?_of_region hk hat]
    exact (List.of_mem_zip hexit).1

variable {points : List Point} {areas : Table Point Area}

theorem Trail.late (hmode : pt.mode = .static) (hst : pt.requests.StaticAfter)
    (hf : Finished cx pt t points areas (view pt)) {vs : List Visit} {p : Point} {v : Visit}
    {rest : List OpId} (h : Trail cx pt t vs p (v.op :: rest))
    (hlast : v.last ∈ requestOps cx pt v.op) (hm : (moverAt cx pt v.op).Advances)
    (hpost : phase cx pt vs = .post) :
    ((Plan.ofThread cx pt t).yields v.last .after).head? = some .yields := by
  have hnoted := (h.ahead hf).1.visit
  rw [hpost] at hnoted
  exact hnoted.late hmode hst rfl hm hlast

theorem Trail.guarded (hmode : pt.mode = .static) (hst : pt.requests.StaticAfter)
    (hf : Finished cx pt t points areas (view pt)) {vs : List Visit} {p : Point}
    {rest : List OpId} (h : Trail cx pt t vs p rest) :
    Guarded (vs.flatMap (sights cx pt (Plan.ofThread cx pt t))) ∧
      (Committed (vs.flatMap (sights cx pt (Plan.ofThread cx pt t))) →
        phase cx pt vs = .post) := by
  induction h with
  | start => exact ⟨by rintro xs m ys h; simp at h, by rintro ⟨xs, m, ys, h, -⟩; simp at h⟩
  | @pass vs p o rest htrail ho ih =>
    rw [List.flatMap_append, List.flatMap_singleton, phase_append]
    have hlast : o ∈ requestOps cx pt o := by simp [requestOps, opens?_of_ne ho.2.2]
    exact visit_guarded ih.1 ih.2 (Trail.late hmode hst hf (v := ⟨o, o⟩) htrail hlast)
  | jump htrail hl _ ih =>
    rw [List.flatMap_append, List.flatMap_singleton, phase_append]
    exact visit_guarded ih.1 ih.2 (htrail.late hmode hst hf hl.last_mem)

theorem Trail.guarded_visit (hmode : pt.mode = .static) (hst : pt.requests.StaticAfter)
    (hf : Finished cx pt t points areas (view pt)) {vs : List Visit} {p : Point} {v : Visit}
    {rest : List OpId} (h : Trail cx pt t vs p (v.op :: rest))
    (hlast : v.last ∈ requestOps cx pt v.op) :
    Guarded ((vs ++ [v]).flatMap (sights cx pt (Plan.ofThread cx pt t))) := by
  obtain ⟨hguard, hphase⟩ := h.guarded hmode hst hf
  rw [List.flatMap_append, List.flatMap_singleton]
  exact (visit_guarded hguard hphase (h.late hmode hst hf hlast)).1

theorem Run.guarded (g : Grounded cx pt t) (hmode : pt.mode = .static)
    (hst : pt.requests.StaticAfter) (hf : Finished cx pt t points areas (view pt))
    {vs : List Visit} {v : Visit} {calls : List OpId} (h : Run cx pt t vs v.op calls)
    (hlast : v.last ∈ requestOps cx pt v.op) :
    Guarded ((vs ++ [v]).flatMap (sights cx pt (Plan.ofThread cx pt t))) := by
  rcases g.follows_run h with harr | harr
  · refine (quiet_sights fun x hx => ?_).guarded
    rcases List.mem_append.mp hx with hx | hx
    · exact harr.hops x hx
    · rw [List.mem_singleton.mp hx]
      exact harr.kind
  · obtain ⟨hops, vs', rfl, hhops, p, rest, htrail⟩ := harr.trail
    rw [List.append_assoc, List.flatMap_append]
    exact (quiet_sights hhops).append_guarded (htrail.guarded_visit hmode hst hf hlast)

end PhaseTracker

open PhaseTracker in
/-- Every part of a run of a planned thread in which it does not yield is reducible, except perhaps
for its last step, which is then followed by a yield at once. -/
theorem static_blocks_reduce {prog : Program} (hbuilt : prog.Built)
    (hsize : prog.ops.size ≤ BitMatrix.maxRows) {mayAlias : AliasOracle} {red : Reduction}
    (h : (prog.reduceWith mayAlias .static).result = .ok red) {plan : ThreadPlan}
    (hplan : plan ∈ red.plan.threads) {vs : List Visit} {v : Visit} {calls : List OpId}
    (hrun : Run red.analysis red.tracker plan.thread vs v.op calls)
    (hlast : v.last ∈ requestOps red.analysis red.tracker v.op) {xs zs : List Sight}
    {ms : List Mover}
    (hs : (vs ++ [v]).flatMap (sights red.analysis red.tracker plan) =
      xs ++ ms.map .moves ++ zs) :
    Reducible ms ∨ Reducible ms.dropLast ∧ zs.head? = some .yields := by
  obtain ⟨hcx, checks, n, htrack, hbuild⟩ := Program.reduceWith_ok h
  rw [hbuild] at hplan
  obtain ⟨t, hmem, rfl⟩ := List.mem_map.mp hplan
  obtain ⟨hst, hmode, hall⟩ := run_finished htrack
  obtain ⟨points, areas, -, hf⟩ := hall t hmem
  have hempty : BlockStarts.StaticAfter {} := by
    intro u x r hr
    simp [BlockStarts.get?, BlockStarts.ofThread] at hr
  have hscanned : Scanned red.analysis red.tracker :=
    run_scanned htrack fun o region ho => by simp [Table.get?] at ho
  have hground := hbuilt.grounded hsize hcx hscanned hmem
  exact (hrun.guarded hground hmode (hst hempty) hf hlast).reducible hs

def ThreadPlan.racy : ThreadPlan := Plan.ofThread Reduction.racy.analysis Reduction.racy.tracker 0

def BuildStep.racySteps : List BuildStep :=
  [.proc "main", .proc "worker", .block 0 "entry", .block 1 "entry",
    .op 0 (.library (.threadCreate 1)), .op 0 (.library .yield),
    .op 0 (.memory .write (.named "x")), .op 0 (.memory .write (.named "x")),
    .op 0 (.terminator .ret), .op 1 (.memory .write (.named "x")), .op 1 (.terminator .ret)]

theorem Program.built_racy : Program.racy.Built := by
  refine .inl ⟨BuildStep.racySteps, .racy, [0, 1, 0, 1, 0, 1, 2, 3, 4, 5, 6], ?_, ?_⟩
  · decide +kernel
  · decide +kernel

namespace PhaseTracker

theorem mem_racy : ThreadPlan.racy ∈ Reduction.racy.plan.threads := by decide +kernel

theorem racy_run : Run Reduction.racy.analysis Reduction.racy.tracker ThreadPlan.racy.thread
    [⟨0, 0⟩, ⟨1, 1⟩, ⟨2, 2⟩] 3 [] := by
  have hfollows : ∀ o < 4, Reduction.racy.analysis.prog.Follows o (o + 1) := by
    unfold Program.Follows
    decide +kernel
  have h : Run Reduction.racy.analysis Reduction.racy.tracker ThreadPlan.racy.thread [] 0 [] :=
    .start (by decide +kernel)
  exact ((h.pass (racy_passes 0 (by decide)) (hfollows 0 (by decide))).pass
    (racy_passes 1 (by decide)) (hfollows 1 (by decide))).pass
    (racy_passes 2 (by decide)) (hfollows 2 (by decide))

theorem racy_sights : List.flatMap (sights Reduction.racy.analysis Reduction.racy.tracker .racy)
      [⟨0, 0⟩, ⟨1, 1⟩, ⟨2, 2⟩, ⟨3, 3⟩] =
    [.moves .left, .moves .both, .yields] ++ [Mover.none, .none].map .moves ++ [.yields] := by
  decide +kernel

end PhaseTracker

open PhaseTracker in
theorem racy_block_reduces_without_its_last_write :
    Program.racy.Built ∧ Program.racy.ops.size ≤ BitMatrix.maxRows ∧
      (Program.racy.reduce .static).result = .ok .racy ∧ Reducible [Mover.none] := by
  have hsize : Program.racy.ops.size ≤ BitMatrix.maxRows := by decide +kernel
  refine ⟨Program.built_racy, hsize, Program.reduce_racy, ?_⟩
  rcases static_blocks_reduce (v := ⟨3, 3⟩) Program.built_racy hsize Program.reduce_racy mem_racy
    racy_run (by decide +kernel) racy_sights with h | h
  · exact absurd (pairwise_of_reducible h) (by simp [Mover.Commits, Mover.Advances])
  · exact h.1

open PhaseTracker in
/-- Between two consecutive yields there may be two operations that do not move. -/
theorem static_block_is_not_always_reducible :
    ¬ ∀ (prog : Program) (red : Reduction), prog.Built →
      (prog.reduce .static).result = .ok red →
      ∀ plan ∈ red.plan.threads, ∀ (vs : List Visit) (v : Visit) (calls : List OpId),
        Run red.analysis red.tracker plan.thread vs v.op calls →
        v.last ∈ requestOps red.analysis red.tracker v.op →
        ∀ (xs zs : List Sight) (ms : List Mover),
          (vs ++ [v]).flatMap (sights red.analysis red.tracker plan) =
            xs ++ [.yields] ++ ms.map .moves ++ [.yields] ++ zs → Reducible ms := by
  intro h
  have hsights := racy_sights
  have hr := h .racy .racy Program.built_racy Program.reduce_racy .racy mem_racy
    [⟨0, 0⟩, ⟨1, 1⟩, ⟨2, 2⟩] ⟨3, 3⟩ [] racy_run (by decide +kernel)
    [.moves .left, .moves .both] [] [.none, .none] (by simpa using hsights)
  exact absurd (pairwise_of_reducible hr) (by simp [Mover.Commits, Mover.Advances])

end YieldPlan
