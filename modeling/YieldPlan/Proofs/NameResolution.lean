import YieldPlan.Program.Lowering
import YieldPlan.Program.Printer

/-! A description is well-formed if its names tell its procedures and blocks apart, and every name
that a successor or a thread creation refers to is among them. Each step of lowering that looks a
name up, or checks that names differ, succeeds exactly where this holds of what it looks at, and
otherwise reports what is malformed. -/

namespace YieldPlan

/-- The functions that make a call of a kind. -/
def LibraryKind.names : LibraryKind → List String
  | .yield => ["pthread_yield", "sched_yield", "thrd_yield"]
  | .threadCreate => ["pthread_create", "thrd_create"]
  | .threadJoin => ["pthread_join", "thrd_join"]
  | .mutexLock => ["pthread_mutex_lock", "mtx_lock"]
  | .mutexUnlock => ["pthread_mutex_unlock", "mtx_unlock"]
  | .readLock => ["pthread_rwlock_rdlock"]
  | .writeLock => ["pthread_rwlock_wrlock"]
  | .rwUnlock => ["pthread_rwlock_unlock"]
  | .mutexInit => ["pthread_mutex_init", "pthread_rwlock_init", "mtx_init"]
  | .atomicBegin => ["__VERIFIER_atomic_begin"]
  | .atomicEnd => ["__VERIFIER_atomic_end"]
  | .assert => ["__VERIFIER_assert", "__assert_fail", "assert"]

/-- A thread creation that is not hidden by a procedure of its name starts one of the procedures. -/
def OperationDesc.Resolves (procs : List String) : OperationDesc → Prop
  | .call callee arg => callee ∉ procs → callee ∈ LibraryKind.threadCreate.names →
      ∃ target ∈ procs, arg = some target
  | _ => True

structure BlockDesc.WellFormed (procs blocks : List String) (d : BlockDesc) : Prop where
  ops : ∀ o ∈ d.ops, o.Resolves procs
  succs : ∀ s ∈ d.succs, s ∈ blocks

def ProcedureDesc.blockNames (d : ProcedureDesc) : List String := d.blocks.map (·.name)

structure ProcedureDesc.WellFormed (procs : List String) (d : ProcedureDesc) : Prop where
  nonempty : d.blocks ≠ []
  nodup : d.blockNames.Nodup
  blocks : ∀ b ∈ d.blocks, b.WellFormed procs d.blockNames

def Description.procNames (d : Description) : List String := d.procedures.map (·.name)

structure Description.WellFormed (d : Description) : Prop where
  nodup : d.procNames.Nodup
  procedures : ∀ p ∈ d.procedures, p.WellFormed d.procNames

/-- A location is known by its name, or not at all. -/
inductive Location.Means : Option String → Location → Prop where
  | named {name} : Means (some name) (.named name)
  | unknown : Means none .unknown

/-- The library call that a function and an argument stand for. The argument is the procedure that a
thread creation starts, or the lock that a call is about. Other calls ignore it. -/
inductive LibraryCall.Means (procs : List String) : String → Option String → LibraryCall → Prop where
  | unknown {f arg} : (∀ kind : LibraryKind, f ∉ kind.names) → Means procs f arg (.unknown f)
  | yield {f arg} : f ∈ LibraryKind.yield.names → Means procs f arg .yield
  | threadCreate {f target} : f ∈ LibraryKind.threadCreate.names → target ∈ procs →
      Means procs f (some target) (.threadCreate (procs.idxOf target))
  | threadJoin {f arg} : f ∈ LibraryKind.threadJoin.names → Means procs f arg .threadJoin
  | mutexLock {f arg lock} : f ∈ LibraryKind.mutexLock.names → Location.Means arg lock →
      Means procs f arg (.mutexLock lock)
  | mutexUnlock {f arg lock} : f ∈ LibraryKind.mutexUnlock.names → Location.Means arg lock →
      Means procs f arg (.mutexUnlock lock)
  | readLock {f arg lock} : f ∈ LibraryKind.readLock.names → Location.Means arg lock →
      Means procs f arg (.readLock lock)
  | writeLock {f arg lock} : f ∈ LibraryKind.writeLock.names → Location.Means arg lock →
      Means procs f arg (.writeLock lock)
  | rwUnlock {f arg lock} : f ∈ LibraryKind.rwUnlock.names → Location.Means arg lock →
      Means procs f arg (.rwUnlock lock)
  | mutexInit {f arg lock} : f ∈ LibraryKind.mutexInit.names → Location.Means arg lock →
      Means procs f arg (.mutexInit lock)
  | atomicBegin {f arg} : f ∈ LibraryKind.atomicBegin.names → Means procs f arg .atomicBegin
  | atomicEnd {f arg} : f ∈ LibraryKind.atomicEnd.names → Means procs f arg .atomicEnd
  | assert {f arg} : f ∈ LibraryKind.assert.names → Means procs f arg .assert

/-- The kind of operation that a description stands for. A callee that names a procedure is called,
whatever the library makes of the name. -/
inductive OpKind.Means (procs : List String) : OperationDesc → OpKind → Prop where
  | access {access loc l} : Location.Means loc l → Means procs (.access access loc) (.memory access l)
  | local : Means procs .local .local
  | debug : Means procs .debug .debug
  | call {callee arg} : callee ∈ procs → Means procs (.call callee arg) (.call (procs.idxOf callee))
  | library {callee arg call} : callee ∉ procs → LibraryCall.Means procs callee arg call →
      Means procs (.call callee arg) (.library call)

theorem Location.means_ofName? (name : Option String) : Means name (ofName? name) := by
  cases name with
  | none => exact .unknown
  | some name => exact .named

namespace LibraryKind

variable {name : String} {kind : LibraryKind}

theorem mem_names_of_recognized : ∀ e ∈ recognizedNames, e.1 ∈ e.2.names := by decide

theorem ofName?_of_mem_names (h : name ∈ kind.names) : ofName? name = some kind := by
  have hall : ∀ k ∈ recognizedNames.map (·.2), ∀ n ∈ k.names, ofName? n = some k := by decide
  refine hall kind ?_ name h
  cases kind <;> decide

theorem ofName?_eq_some : ofName? name = some kind ↔ name ∈ kind.names := by
  refine ⟨fun h => ?_, ofName?_of_mem_names⟩
  obtain ⟨e, he, rfl⟩ := Option.map_eq_some_iff.mp h
  have hname : e.1 = name := by simpa using List.find?_some he
  exact hname ▸ mem_names_of_recognized e (List.mem_of_find?_eq_some he)

theorem not_mem_names (h : ofName? name = none) (kind : LibraryKind) : name ∉ kind.names := by
  intro hmem
  rw [ofName?_eq_some.mpr hmem] at h
  cases h

end LibraryKind

/-- The computation succeeds exactly if `W` holds, with a result as `Q` says, and otherwise it reports
what is malformed. -/
def Checked.Accepts {α : Type} (x : Checked α) (W : Prop) (Q : α → Prop) : Prop :=
  W ∧ (∃ a, x = .ok a ∧ Q a) ∨ ¬ W ∧ ∃ m : Malformation, x = m.fail

namespace Checked

variable {α β : Type} {V W : Prop} {Q : α → Prop} {x : Checked α}

theorem accepts_ok {a : α} (hw : W) (hq : Q a) : Accepts (.ok a) W Q := .inl ⟨hw, a, rfl, hq⟩

theorem accepts_fail {m : Malformation} (hw : ¬ W) : Accepts (m.fail : Checked α) W Q :=
  .inr ⟨hw, m, rfl⟩

theorem Accepts.congr (h : x.Accepts W Q) (hW : W ↔ V) : x.Accepts V Q :=
  propext hW ▸ h

theorem Accepts.mono {Q' : α → Prop} (h : x.Accepts W Q)
    (hQ : ∀ a, x = .ok a → Q a → Q' a) : x.Accepts W Q' := by
  rcases h with ⟨hw, a, ha, hq⟩ | hno
  · exact .inl ⟨hw, a, ha, hQ a ha hq⟩
  · exact .inr hno

theorem Accepts.bind {R : β → Prop} {f : α → Checked β} (h : x.Accepts W Q)
    (hf : ∀ a, Q a → (f a).Accepts V R) : (x >>= f).Accepts (W ∧ V) R := by
  rcases h with ⟨hw, a, rfl, hq⟩ | ⟨hw, m, rfl⟩
  · rcases hf a hq with ⟨hw', hb⟩ | ⟨hw', hm⟩
    · exact .inl ⟨⟨hw, hw'⟩, hb⟩
    · exact .inr ⟨fun hboth => hw' hboth.2, hm⟩
  · exact .inr ⟨fun hboth => hw hboth.1, m, rfl⟩

theorem Accepts.of_ok (h : x.Accepts W Q) {a : α} (hx : x = .ok a) : Q a := by
  rcases h with ⟨-, b, hb, hq⟩ | ⟨-, m, hm⟩
  · rw [hx] at hb
    cases hb
    exact hq
  · rw [hx] at hm
    cases hm

end Checked

theorem findIdx?_name (names : List String) (name : String) :
    (name ∈ names ∧ names.findIdx? (· == name) = some (names.idxOf name)) ∨
      (name ∉ names ∧ names.findIdx? (· == name) = none) := by
  by_cases hmem : name ∈ names
  · refine .inl ⟨hmem, List.findIdx?_eq_some_iff_findIdx_eq.mpr ⟨?_, rfl⟩⟩
    exact List.idxOf_lt_length_iff.mpr hmem
  · refine .inr ⟨hmem, List.findIdx?_eq_none_iff.mpr fun other hother => ?_⟩
    have hne : other ≠ name := fun heq => hmem (heq ▸ hother)
    simp [hne]

theorem firstRepeat?_eq_none {seen names : List String} :
    firstRepeat? seen names = none ↔ names.Nodup ∧ ∀ x ∈ names, x ∉ seen := by
  induction names generalizing seen with
  | nil => simp [firstRepeat?]
  | cons x xs ih =>
    rw [firstRepeat?]
    by_cases hx : x ∈ seen
    · simp [hx]
    · simp only [hx, ↓reduceIte, ih, List.nodup_cons, List.mem_cons, not_or]
      constructor
      · rintro ⟨hnodup, hseen⟩
        refine ⟨⟨fun hmem => (hseen x hmem).1 rfl, hnodup⟩, ?_⟩
        rintro y (rfl | hy)
        · exact hx
        · exact (hseen y hy).2
      · rintro ⟨⟨hnot, hnodup⟩, hseen⟩
        refine ⟨hnodup, fun y hy => ⟨?_, hseen y (.inr hy)⟩⟩
        rintro rfl
        exact hnot hy

theorem accepts_distinct {α : Type} {names : List String} {f : String → Malformation}
    {x : Checked α} {W : Prop} {Q : α → Prop} (h : x.Accepts W Q) :
    Checked.Accepts (match firstRepeat? [] names with
      | some name => (f name).fail
      | none => x) (names.Nodup ∧ W) Q := by
  have hiff : firstRepeat? [] names = none ↔ names.Nodup ∧ ∀ x ∈ names, x ∉ [] :=
    firstRepeat?_eq_none
  cases hr : firstRepeat? [] names with
  | none =>
    have hnodup : names.Nodup := (hiff.mp hr).1
    exact h.congr (and_iff_right hnodup).symm
  | some name =>
    apply Checked.accepts_fail
    rintro ⟨hnodup, -⟩
    rw [hiff.mpr ⟨hnodup, by simp⟩] at hr
    cases hr

namespace Lowering

open Program Checked

variable {procs : List String}

theorem libraryCall_accepts (name : String) (arg : Option String) (hname : name ∉ procs) :
    (libraryCall procs name arg).Accepts ((OperationDesc.call name arg).Resolves procs)
      (LibraryCall.Means procs name arg) := by
  have haccepts : LibraryKind.ofName? name ≠ some .threadCreate →
      ∀ {call}, LibraryCall.Means procs name arg call →
        Checked.Accepts (.ok call) ((OperationDesc.call name arg).Resolves procs)
          (LibraryCall.Means procs name arg) := fun hne _ hcall =>
    accepts_ok (fun _ hspawn => absurd (LibraryKind.ofName?_eq_some.mpr hspawn) hne) hcall
  unfold libraryCall
  cases hkind : LibraryKind.ofName? name with
  | none => exact haccepts (by simp [hkind]) (.unknown (LibraryKind.not_mem_names hkind))
  | some kind =>
    have hmem : name ∈ kind.names := LibraryKind.ofName?_eq_some.mp hkind
    have hlock := Location.means_ofName? arg
    cases kind with
    | threadCreate =>
      cases arg with
      | none =>
        apply accepts_fail
        intro hw
        obtain ⟨target, -, harg⟩ := hw hname hmem
        cases harg
      | some target =>
        dsimp only [Option.bind_some]
        rcases findIdx?_name procs target with ⟨htarget, hfind⟩ | ⟨htarget, hfind⟩
        · rw [hfind]
          apply accepts_ok
          · exact fun _ _ => ⟨target, htarget, rfl⟩
          · exact .threadCreate hmem htarget
        · rw [hfind]
          apply accepts_fail
          intro hw
          obtain ⟨other, hother, harg⟩ := hw hname hmem
          cases harg
          exact htarget hother
    | yield => exact haccepts (by simp [hkind]) (.yield hmem)
    | threadJoin => exact haccepts (by simp [hkind]) (.threadJoin hmem)
    | mutexLock => exact haccepts (by simp [hkind]) (.mutexLock hmem hlock)
    | mutexUnlock => exact haccepts (by simp [hkind]) (.mutexUnlock hmem hlock)
    | readLock => exact haccepts (by simp [hkind]) (.readLock hmem hlock)
    | writeLock => exact haccepts (by simp [hkind]) (.writeLock hmem hlock)
    | rwUnlock => exact haccepts (by simp [hkind]) (.rwUnlock hmem hlock)
    | mutexInit => exact haccepts (by simp [hkind]) (.mutexInit hmem hlock)
    | atomicBegin => exact haccepts (by simp [hkind]) (.atomicBegin hmem)
    | atomicEnd => exact haccepts (by simp [hkind]) (.atomicEnd hmem)
    | assert => exact haccepts (by simp [hkind]) (.assert hmem)

theorem operation_accepts (o : OperationDesc) :
    (operation procs o).Accepts (o.Resolves procs) (OpKind.Means procs o) := by
  cases o with
  | access access loc => exact accepts_ok trivial (.access (Location.means_ofName? loc))
  | «local» => exact accepts_ok trivial .local
  | debug => exact accepts_ok trivial .debug
  | call callee arg =>
    rw [operation]
    rcases findIdx?_name procs callee with ⟨hmem, hfind⟩ | ⟨hmem, hfind⟩
    · rw [hfind]
      exact accepts_ok (fun hnot => absurd hmem hnot) (.call hmem)
    · rw [hfind]
      have hcall := (libraryCall_accepts callee arg hmem).bind (V := True) fun call hcall =>
        accepts_ok trivial (OpKind.Means.library hmem hcall)
      exact hcall.congr (and_iff_left trivial)

example : operation ["main", "pthread_create"] (.call "pthread_create" none) = .ok (.call 1) := rfl

theorem successors_accepts (proc block : String) (blocks : List String) (base : BlockId)
    (succs : List String) :
    (succs.mapM (successor proc block blocks base)).Accepts (∀ s ∈ succs, s ∈ blocks)
      (· = succs.map fun s => base + blocks.idxOf s) := by
  induction succs with
  | nil => exact accepts_ok (by simp) rfl
  | cons s succs ih =>
    have hs : (successor proc block blocks base s).Accepts (s ∈ blocks)
        (· = base + blocks.idxOf s) := by
      unfold successor
      rcases findIdx?_name blocks s with ⟨hmem, hfind⟩ | ⟨hmem, hfind⟩
      · rw [hfind]
        exact accepts_ok hmem rfl
      · rw [hfind]
        exact accepts_fail hmem
    rw [List.mapM_cons]
    refine (hs.bind (V := ∀ s ∈ succs, s ∈ blocks) fun i hi => ?_).congr
      List.forall_mem_cons.symm
    refine (ih.bind (V := True) fun is his => ?_).congr (and_iff_left trivial)
    subst hi his
    exact accepts_ok trivial rfl

end Lowering

end YieldPlan
