import YieldPlan.Proofs.ThreadRequests
import Mathlib.Data.Finset.Card
import Mathlib.Data.List.Induction

/-! What stands at an operation of a thread after a sequence of filings depends on those for that
operation alone, its number apart, which counts the operations that the thread had before. The
strongest kind wins with the placement that it came with first, and the sources of a filing are kept
if it was at least as strong as what stood there when it came. -/

namespace YieldPlan

structure Filing where
  thread : ThreadId
  op : OpId
  kind : BlockKind
  placement : Placement
  sources : List OpId
  deriving DecidableEq, Repr

namespace Filing

def IsFor (f : Filing) (t : ThreadId) (o : OpId) : Prop := f.thread = t ∧ f.op = o

instance (f : Filing) (t : ThreadId) (o : OpId) : Decidable (f.IsFor t o) :=
  inferInstanceAs (Decidable (_ ∧ _))

def filedAt (fs : List Filing) (t : ThreadId) (o : OpId) : List Filing :=
  fs.filter fun f => f.IsFor t o

def ofThread (fs : List Filing) (t : ThreadId) : List Filing := fs.filter fun f => f.thread = t

/-- The filings that came before the first one for an operation of a thread. -/
def before (fs : List Filing) (t : ThreadId) (o : OpId) : List Filing :=
  fs.takeWhile fun f => ¬ f.IsFor t o

def opsOf (fs : List Filing) (t : ThreadId) : Finset OpId := ((ofThread fs t).map (·.op)).toFinset

structure Strongest (fs : List Filing) (kind : BlockKind) : Prop where
  filed : ∃ f ∈ fs, f.kind = kind
  greatest : ∀ f ∈ fs, f.kind.strength ≤ kind.strength

variable {fs : List Filing} {t u : ThreadId} {o x : OpId} {f : Filing} {kind : BlockKind}

theorem filedAt_append (fs : List Filing) (f : Filing) (t : ThreadId) (o : OpId) :
    filedAt (fs ++ [f]) t o = if f.IsFor t o then filedAt fs t o ++ [f] else filedAt fs t o := by
  by_cases h : f.IsFor t o <;> simp [filedAt, h]

theorem ofThread_append (fs : List Filing) (f : Filing) (t : ThreadId) :
    ofThread (fs ++ [f]) t = if f.thread = t then ofThread fs t ++ [f] else ofThread fs t := by
  by_cases h : f.thread = t <;> simp [ofThread, h]

theorem not_isFor_of_filedAt (h : filedAt fs t o = []) : ∀ f ∈ fs, ¬ f.IsFor t o := by
  intro f hf
  simpa using List.filter_eq_nil_iff.mp h f hf

theorem before_append (h : filedAt fs t o ≠ []) : before (fs ++ [f]) t o = before fs t o := by
  obtain ⟨g, hg⟩ := List.exists_mem_of_ne_nil _ h
  obtain ⟨hg, hfor⟩ := List.mem_filter.mp hg
  unfold before
  rw [List.takeWhile_append, if_neg]
  intro hlength
  have hself := (List.takeWhile_prefix (fun f : Filing => decide ¬ f.IsFor t o)).eq_of_length hlength
  have hnot := List.all_takeWhile (p := fun f : Filing => decide ¬ f.IsFor t o) (l := fs)
  rw [hself] at hnot
  have := List.all_eq_true.mp hnot g hg
  simp_all

theorem before_append_of_new (h : filedAt fs t o = []) (hf : f.IsFor t o) :
    before (fs ++ [f]) t o = fs := by
  have hall : ∀ g ∈ fs, decide (¬ g.IsFor t o) = true := by
    intro g hg
    simpa using not_isFor_of_filedAt h g hg
  unfold before
  rw [List.takeWhile_append_of_pos hall]
  simp [hf]

theorem length_before_lt (h : filedAt fs t o ≠ []) : (before fs t o).length < fs.length := by
  induction fs with
  | nil => exact absurd rfl h
  | cons f fs ih =>
    by_cases hf : f.IsFor t o
    · simp [before, hf]
    · have hrest : filedAt fs t o ≠ [] := by simpa [filedAt, hf] using h
      have := ih hrest
      simpa [before, hf] using this

theorem mem_opsOf : x ∈ opsOf fs t ↔ ∃ f ∈ fs, f.IsFor t x := by
  simp [opsOf, ofThread, IsFor, and_assoc]

theorem mem_opsOf_append : x ∈ opsOf (fs ++ [f]) t ↔ x ∈ opsOf fs t ∨ f.IsFor t x := by
  simp only [mem_opsOf, List.mem_append, List.mem_singleton]
  constructor
  · rintro ⟨g, hg | rfl, hfor⟩
    · exact .inl ⟨g, hg, hfor⟩
    · exact .inr hfor
  · rintro (⟨g, hg, hfor⟩ | hfor)
    · exact ⟨g, .inl hg, hfor⟩
    · exact ⟨f, .inr rfl, hfor⟩

theorem card_opsOf_le (fs : List Filing) (t : ThreadId) : (opsOf fs t).card ≤ fs.length := by
  refine (List.toFinset_card_le _).trans ?_
  rw [List.length_map]
  exact List.length_filter_le _ _

theorem strongest_singleton (f : Filing) : Strongest [f] f.kind := by
  constructor <;> simp

theorem Strongest.append_of_le (h : Strongest fs kind) (hle : kind.strength ≤ f.kind.strength) :
    Strongest (fs ++ [f]) f.kind where
  filed := ⟨f, by simp, rfl⟩
  greatest g hg := by
    rcases List.mem_append.mp hg with hg | hg
    · exact (h.greatest g hg).trans hle
    · rw [List.mem_singleton.mp hg]

theorem Strongest.append_of_ge (h : Strongest fs kind) (hge : f.kind.strength ≤ kind.strength) :
    Strongest (fs ++ [f]) kind where
  filed := by
    obtain ⟨g, hg, hkind⟩ := h.filed
    exact ⟨g, List.mem_append_left _ hg, hkind⟩
  greatest g hg := by
    rcases List.mem_append.mp hg with hg | hg
    · exact h.greatest g hg
    · rw [List.mem_singleton.mp hg]
      exact hge

end Filing

namespace BlockStarts

open Filing

variable {s s' : BlockStarts} {fs fs' : List Filing} {t u : ThreadId} {o x : OpId} {f g : Filing}
  {r old : BlockStart}

def add (s : BlockStarts) (f : Filing) : BlockStarts × Filed :=
  s.file f.thread f.op f.kind f.placement f.sources

def ofFilings (fs : List Filing) : BlockStarts := fs.foldl (fun s f => (s.add f).1) {}

/-- What stands at the operation of a filing once it is filed. -/
def joined (s : BlockStarts) (f : Filing) : BlockStart :=
  s.after f.thread f.op f.kind f.placement f.sources

theorem ofFilings_append (fs : List Filing) (f : Filing) :
    ofFilings (fs ++ [f]) = ((ofFilings fs).add f).1 := by
  simp [ofFilings]

theorem get?_append (fs : List Filing) (f : Filing) (t : ThreadId) (o : OpId) :
    (ofFilings (fs ++ [f])).get? t o =
      if f.IsFor t o then some ((ofFilings fs).joined f) else (ofFilings fs).get? t o := by
  rw [ofFilings_append, add, get?_file]
  simp only [joined, IsFor, eq_comm]

theorem joined_of_some (h : s.get? f.thread f.op = some old) :
    s.joined f = (merge old f.kind f.placement f.sources).1 := by
  simp [joined, after, h]

theorem joined_of_none (h : s.get? f.thread f.op = none) :
    s.joined f =
      ⟨f.op, f.kind, (s.ofThread f.thread).length, f.placement, f.sources⟩ := by
  simp [joined, after, h]

theorem ops_ofFilings (fs : List Filing) (t : ThreadId) :
    (((ofFilings fs).ofThread t).map (·.op)).Nodup ∧
      ∀ x, x ∈ ((ofFilings fs).ofThread t).map (·.op) ↔ x ∈ opsOf fs t := by
  induction fs using List.reverseRecOn with
  | nil => exact ⟨List.nodup_nil, fun x => by simp [mem_opsOf, ofFilings, BlockStarts.ofThread]⟩
  | append_singleton fs f ih =>
    obtain ⟨hnodup, hmem⟩ := ih
    rw [ofFilings_append, add]
    by_cases hf : f.thread = t
    · subst hf
      refine ⟨nodup_ops_file hnodup, fun x => ?_⟩
      have hfor : f.IsFor f.thread x ↔ x = f.op := by simp [IsFor, eq_comm]
      rw [ops_file, mem_opsOf_append, ← hmem, hfor]
      split
      · next hold =>
        constructor
        · exact .inl
        · rintro (hx | rfl)
          · exact hx
          · exact hold
      · simp
    · have hfor (x) : ¬ f.IsFor t x := fun h => hf h.1
      rw [ofThread_file fun h => hf h.symm]
      refine ⟨hnodup, fun x => ?_⟩
      rw [hmem, mem_opsOf_append]
      simp [hfor]

theorem length_ofFilings (fs : List Filing) (t : ThreadId) :
    ((ofFilings fs).ofThread t).length = (opsOf fs t).card := by
  obtain ⟨hnodup, hmem⟩ := ops_ofFilings fs t
  rw [← List.length_map (·.op), ← List.toFinset_card_of_nodup hnodup]
  congr 1
  ext x
  rw [List.mem_toFinset, hmem]

/-- A source that came with a filing at least as strong as what stood there when it came. -/
def Lasting (fs : List Filing) (t : ThreadId) (o x : OpId) : Prop :=
  ∃ earlier f, earlier ++ [f] <+: fs ∧ f.IsFor t o ∧ x ∈ f.sources ∧
    ∀ old, (ofFilings earlier).get? t o = some old → old.kind.strength ≤ f.kind.strength

theorem lasting_append : Lasting (fs ++ [f]) t o x ↔ Lasting fs t o x ∨
    f.IsFor t o ∧ x ∈ f.sources ∧
      ∀ old, (ofFilings fs).get? t o = some old → old.kind.strength ≤ f.kind.strength := by
  constructor
  · rintro ⟨earlier, g, hpre, hg⟩
    rcases List.prefix_concat_iff.mp hpre with heq | hpre
    · obtain ⟨rfl, hlast⟩ := List.append_inj' heq rfl
      obtain rfl := List.singleton_inj.mp hlast
      exact .inr hg
    · exact .inl ⟨earlier, g, hpre, hg⟩
  · rintro (⟨earlier, g, hpre, hg⟩ | hf)
    · exact ⟨earlier, g, List.prefix_concat_iff.mpr (.inr hpre), hg⟩
    · exact ⟨fs, f, List.prefix_rfl, hf⟩

theorem Lasting.filed (h : Lasting fs t o x) : filedAt fs t o ≠ [] := by
  obtain ⟨earlier, f, hpre, hfor, -⟩ := h
  have hf : f ∈ fs := hpre.subset (by simp)
  exact List.ne_nil_of_mem (List.mem_filter.mpr ⟨hf, by simpa using hfor⟩)

/-- What a sequence of filings makes of the request at an operation of a thread. -/
structure Records (fs : List Filing) (t : ThreadId) (o : OpId) (r : BlockStart) : Prop where
  op : r.op = o
  strongest : Strongest (filedAt fs t o) r.kind
  placement : ((filedAt fs t o).find? fun f => f.kind = r.kind).map (·.placement) = some r.placement
  number : r.id = (opsOf (before fs t o) t).card
  sources : ∀ x, x ∈ r.sources ↔ Lasting fs t o x

theorem Records.filed (h : Records fs t o r) : filedAt fs t o ≠ [] := by
  obtain ⟨f, hf, -⟩ := h.strongest.filed
  exact List.ne_nil_of_mem hf

theorem Records.other (h : Records fs t o r) (hf : ¬ f.IsFor t o) : Records (fs ++ [f]) t o r := by
  have hat : filedAt (fs ++ [f]) t o = filedAt fs t o := by rw [filedAt_append, if_neg hf]
  constructor
  · exact h.op
  · exact hat ▸ h.strongest
  · exact hat ▸ h.placement
  · rw [before_append h.filed, h.number]
  · intro x
    simp [h.sources, lasting_append, hf]

theorem records_first (hnone : (ofFilings fs).get? t o = none) (hnew : filedAt fs t o = [])
    (hf : f.IsFor t o) : Records (fs ++ [f]) t o ((ofFilings fs).joined f) := by
  obtain ⟨rfl, rfl⟩ := hf
  have hfor : f.IsFor f.thread f.op := ⟨rfl, rfl⟩
  have hat : filedAt (fs ++ [f]) f.thread f.op = [f] := by simp [filedAt_append, hfor, hnew]
  rw [joined_of_none hnone]
  constructor
  · rfl
  · rw [hat]
    exact strongest_singleton f
  · simp [hat]
  · rw [before_append_of_new hnew hfor]
    exact length_ofFilings fs f.thread
  · intro x
    have hnot : ¬ Lasting fs f.thread f.op x := fun h => h.filed hnew
    simp [lasting_append, hnot, hfor, hnone]

theorem Records.merge (h : Records fs t o old) (hold : (ofFilings fs).get? t o = some old)
    (hf : f.IsFor t o) : Records (fs ++ [f]) t o ((ofFilings fs).joined f) := by
  obtain ⟨rfl, rfl⟩ := hf
  have hfor : f.IsFor f.thread f.op := ⟨rfl, rfl⟩
  have hat : filedAt (fs ++ [f]) f.thread f.op = filedAt fs f.thread f.op ++ [f] := by
    rw [filedAt_append, if_pos hfor]
  have hsources (x) : Lasting (fs ++ [f]) f.thread f.op x ↔
      x ∈ old.sources ∨ x ∈ f.sources ∧ old.kind.strength ≤ f.kind.strength := by
    simp [lasting_append, h.sources, hfor, hold]
  have hnumber : old.id = (opsOf (before (fs ++ [f]) f.thread f.op) f.thread).card := by
    rw [before_append h.filed, h.number]
  rw [joined_of_some hold, BlockStarts.merge]
  rcases Nat.lt_trichotomy old.kind.strength f.kind.strength with hlt | heq | hgt
  · have hfirst : (filedAt fs f.thread f.op).find? (fun g => g.kind = f.kind) = none := by
      rw [List.find?_eq_none]
      intro g hg
      have := h.strongest.greatest g hg
      simp only [decide_eq_true_eq]
      intro hkind
      rw [hkind] at this
      omega
    simp only [hlt, ↓reduceIte]
    constructor
    · exact h.op
    · rw [hat]
      exact h.strongest.append_of_le hlt.le
    · simp [hat, hfirst]
    · exact hnumber
    · intro x
      simp [hsources, hlt.le]
  · have hkind : f.kind = old.kind := BlockKind.strength_injective heq.symm
    simp only [heq, lt_irrefl, ↓reduceIte, hkind]
    constructor
    · exact h.op
    · rw [hat]
      exact h.strongest.append_of_ge heq.ge
    · rw [hat, List.find?_append, Option.map_or, h.placement]
      rfl
    · exact hnumber
    · intro x
      simp [hsources, heq]
  · have hkind : f.kind ≠ old.kind := fun he => by simp [he] at hgt
    simp only [not_lt.mpr hgt.le, ↓reduceIte, hkind]
    constructor
    · exact h.op
    · rw [hat]
      exact h.strongest.append_of_ge hgt.le
    · rw [hat, List.find?_append, Option.map_or, h.placement]
      rfl
    · exact hnumber
    · intro x
      simp [hsources, not_le.mpr hgt]

theorem ofFilings_records (fs : List Filing) (t : ThreadId) (o : OpId) :
    ((ofFilings fs).get? t o = none ∧ filedAt fs t o = []) ∨
      ∃ r, (ofFilings fs).get? t o = some r ∧ Records fs t o r := by
  induction fs using List.reverseRecOn with
  | nil => exact .inl ⟨rfl, rfl⟩
  | append_singleton fs f ih =>
    rw [get?_append]
    by_cases hf : f.IsFor t o
    · rw [if_pos hf]
      refine .inr ⟨_, rfl, ?_⟩
      rcases ih with ⟨hnone, hnew⟩ | ⟨old, hold, h⟩
      · exact records_first hnone hnew hf
      · exact h.merge hold hf
    · rw [if_neg hf]
      rcases ih with ⟨hnone, hnew⟩ | ⟨old, hold, h⟩
      · exact .inl ⟨hnone, by rw [filedAt_append, if_neg hf, hnew]⟩
      · exact .inr ⟨old, hold, h.other hf⟩

/-- What the answer to a filing says of those for the same operation that came before. -/
def Answers (earlier : List Filing) (f : Filing) : Filed → Prop
  | .new => earlier = []
  | .upgraded kind => Strongest earlier kind ∧ kind.strength < f.kind.strength
  | .dropped => ∃ g ∈ earlier, f.kind.strength ≤ g.kind.strength

theorem add_answers (fs : List Filing) (f : Filing) :
    Answers (filedAt fs f.thread f.op) f ((ofFilings fs).add f).2 := by
  unfold add file
  rcases ofFilings_records fs f.thread f.op with ⟨hnone, hnew⟩ | ⟨old, hold, h⟩
  · rw [hnone]
    exact hnew
  · rw [hold]
    dsimp only
    unfold BlockStarts.merge
    by_cases hlt : old.kind.strength < f.kind.strength
    · simp only [hlt, ↓reduceIte]
      exact ⟨h.strongest, hlt⟩
    · have hdropped : Answers (filedAt fs f.thread f.op) f .dropped := by
        obtain ⟨g, hg, hkind⟩ := h.strongest.filed
        exact ⟨g, hg, hkind ▸ not_lt.mp hlt⟩
      simp only [hlt, ↓reduceIte]
      split <;> exact hdropped

theorem file_congr (h : s.ofThread t = s'.ofThread t) (kind : BlockKind) (placement : Placement)
    (sources : List OpId) : (s.file t o kind placement sources).1.ofThread t =
      (s'.file t o kind placement sources).1.ofThread t := by
  have hget : s.get? t o = s'.get? t o := by rw [get?, get?, h]
  unfold file
  rw [hget, h]
  cases s'.get? t o <;> simp [ofThread_put]

theorem ofThread_ofFilings (fs : List Filing) (t : ThreadId) :
    (ofFilings fs).ofThread t = (ofFilings (Filing.ofThread fs t)).ofThread t := by
  induction fs using List.reverseRecOn with
  | nil => rfl
  | append_singleton fs f ih =>
    rw [Filing.ofThread_append]
    by_cases hf : f.thread = t
    · subst hf
      rw [if_pos rfl, ofFilings_append, ofFilings_append]
      exact file_congr ih f.kind f.placement f.sources
    · rw [if_neg hf, ofFilings_append, add, ofThread_file fun h => hf h.symm, ih]

def content (r : BlockStart) : BlockKind × Placement × List OpId := (r.kind, r.placement, r.sources)

theorem content_merge {old' : BlockStart} (h : content old = content old') (kind : BlockKind)
    (placement : Placement) (sources : List OpId) :
    content (BlockStarts.merge old kind placement sources).1 =
      content (BlockStarts.merge old' kind placement sources).1 := by
  simp only [content, Prod.mk.injEq] at h
  obtain ⟨hkind, hplacement, hsources⟩ := h
  unfold BlockStarts.merge
  rw [hkind, hsources]
  dsimp only
  split
  · rfl
  · split <;> simp [content, hkind, hplacement, hsources]

theorem content_joined
    (h : (s.get? f.thread f.op).map content = (s'.get? f.thread f.op).map content) :
    content (s.joined f) = content (s'.joined f) := by
  cases hs : s.get? f.thread f.op with
  | none =>
    have hs' : s'.get? f.thread f.op = none := by simpa [hs] using h.symm
    rw [joined_of_none hs, joined_of_none hs']
    rfl
  | some old =>
    obtain ⟨old', hs', hcontent⟩ : ∃ old', s'.get? f.thread f.op = some old' ∧
        content old' = content old := by simpa [hs] using h.symm
    rw [joined_of_some hs, joined_of_some hs']
    exact content_merge hcontent.symm _ _ _

theorem content_ofFilings (fs : List Filing) (t : ThreadId) (o : OpId) :
    ((ofFilings fs).get? t o).map content =
      ((ofFilings (filedAt fs t o)).get? t o).map content := by
  induction fs using List.reverseRecOn with
  | nil => rfl
  | append_singleton fs f ih =>
    rw [get?_append, filedAt_append]
    by_cases hf : f.IsFor t o
    · rw [if_pos hf, if_pos hf, get?_append, if_pos hf]
      obtain ⟨rfl, rfl⟩ := hf
      exact congrArg some (content_joined ih)
    · rw [if_neg hf, if_neg hf, ih]

end BlockStarts

open Filing BlockStarts in
/-- After any sequence of filings, what stands at an operation of a thread for which something was filed
records those filings; each further filing is answered accordingly. Filings for other threads change
nothing of it, and filings for other operations at most its number, which stays below the length of the
sequence. -/
theorem requests_record_their_filings (fs : List Filing) (t : ThreadId) (o : OpId) :
    (filedAt fs t o ≠ [] →
      ∃ r, (ofFilings fs).get? t o = some r ∧ Records fs t o r ∧ r.id < fs.length) ∧
    (∀ f, Answers (filedAt fs f.thread f.op) f ((ofFilings fs).add f).2) ∧
    (∀ fs', Filing.ofThread fs' t = Filing.ofThread fs t →
      (ofFilings fs').get? t o = (ofFilings fs).get? t o) ∧
    (∀ fs', filedAt fs' t o = filedAt fs t o →
      ((ofFilings fs').get? t o).map content = ((ofFilings fs).get? t o).map content) := by
  refine ⟨fun hfiled => ?_, fun f => add_answers fs f, fun fs' hsame => ?_, fun fs' hsame => ?_⟩
  · rcases ofFilings_records fs t o with ⟨-, hnew⟩ | ⟨r, hr, h⟩
    · exact absurd hnew hfiled
    · refine ⟨r, hr, h, ?_⟩
      rw [h.number]
      exact (card_opsOf_le _ t).trans_lt (length_before_lt hfiled)
  · rw [get?, get?, ofThread_ofFilings fs' t, ofThread_ofFilings fs t, hsame]
  · rw [content_ofFilings fs' t o, content_ofFilings fs t o, hsame]

namespace Filing

def crossing : List Filing :=
  [⟨0, 4, .loopBreak, .before, []⟩, ⟨0, 3, .dynamicConflict, .after, [8, 5]⟩,
    ⟨1, 3, .static, .after, [9]⟩, ⟨0, 3, .phaseDynamic, .before, [1]⟩,
    ⟨0, 3, .dynamicConflict, .before, [6, 5]⟩]

end Filing

open Filing BlockStarts in
/-- The sources of a weaker filing are lost, those of an equal one are added, and a stronger one would
be reported with the kind that it replaces. -/
theorem crossing_filings_are_recorded :
    filedAt crossing 0 3 ≠ [] ∧
      (ofFilings crossing).get? 0 3 = some ⟨3, .dynamicConflict, 1, .after, [5, 6, 8]⟩ ∧
      Records crossing 0 3 ⟨3, .dynamicConflict, 1, .after, [5, 6, 8]⟩ ∧
      ((ofFilings crossing).add ⟨0, 3, .static, .after, []⟩).2 = .upgraded .dynamicConflict ∧
      Strongest (filedAt crossing 0 3) .dynamicConflict := by
  have hfiled : filedAt crossing 0 3 ≠ [] := by decide
  have hget : (ofFilings crossing).get? 0 3 =
      some ⟨3, .dynamicConflict, 1, .after, [5, 6, 8]⟩ := by decide +kernel
  have hadd : ((ofFilings crossing).add ⟨0, 3, .static, .after, []⟩).2 =
      .upgraded .dynamicConflict := by decide +kernel
  obtain ⟨hrecord, hanswer, -, -⟩ := requests_record_their_filings crossing 0 3
  obtain ⟨r, hr, hrecords, -⟩ := hrecord hfiled
  obtain rfl := Option.some.inj (hget.symm.trans hr)
  have hupgraded := hanswer ⟨0, 3, .static, .after, []⟩
  rw [hadd] at hupgraded
  exact ⟨hfiled, hget, hrecords, hadd, hupgraded.1⟩

end YieldPlan
