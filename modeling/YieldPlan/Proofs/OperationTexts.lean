import YieldPlan.Description.Encode
import YieldPlan.Plan.Printer
import YieldPlan.Proofs.LoweringExact

/-! An operation is shown by the names of its procedure and its block and its position there. The
position can always be read off the text, but the two names cannot: a dot may belong to either. Two
operations have the same text just where one procedure is named like the other with a dot and more
behind it, and the blocks are named accordingly. -/

namespace YieldPlan

namespace Text

variable {α : Type} {a : α} {xs ys us vs : List α}

theorem append_cons_inj_of_not_mem (hys : a ∉ ys) (hvs : a ∉ vs) :
    xs ++ a :: ys = us ++ a :: vs ↔ xs = us ∧ ys = vs := by
  constructor
  · intro h
    rcases List.append_eq_append_iff.mp h with ⟨as, rfl, has⟩ | ⟨as, rfl, has⟩
    · cases as with
      | nil => simp_all
      | cons b as =>
        obtain ⟨-, rfl⟩ := List.cons.inj has
        simp at hys
    · cases as with
      | nil => simp_all
      | cons b as =>
        obtain ⟨-, rfl⟩ := List.cons.inj has
        simp at hvs
  · rintro ⟨rfl, rfl⟩
    rfl

theorem append_cons_eq_iff : xs ++ a :: ys = us ++ a :: vs ↔
    xs = us ∧ ys = vs ∨ (∃ as, us = xs ++ a :: as ∧ ys = as ++ a :: vs) ∨
      ∃ as, xs = us ++ a :: as ∧ vs = as ++ a :: ys := by
  constructor
  · intro h
    rcases List.append_eq_append_iff.mp h with ⟨as, rfl, has⟩ | ⟨as, rfl, has⟩
    · cases as with
      | nil => simp_all
      | cons b as =>
        obtain ⟨rfl, rfl⟩ := List.cons.inj has
        exact .inr (.inl ⟨as, rfl, rfl⟩)
    · cases as with
      | nil => simp_all
      | cons b as =>
        obtain ⟨rfl, rfl⟩ := List.cons.inj has
        exact .inr (.inr ⟨as, rfl, rfl⟩)
  · rintro (⟨rfl, rfl⟩ | ⟨as, rfl, rfl⟩ | ⟨as, rfl, rfl⟩)
    · rfl
    · simp
    · simp

end Text

namespace Program

variable {prog : Program} {o o' : OpId}

def blockName (prog : Program) (o : OpId) : String := (prog.block (prog.blockOf o)).name

/-- The operations have the same position, and a part `x` of the text may belong to the block of the
first or to the procedure of the second. -/
def Blurs (prog : Program) (o o' : OpId) : Prop :=
  (prog.op o).position = (prog.op o').position ∧
    ∃ x, prog.procName (prog.procOf o') = prog.procName (prog.procOf o) ++ "." ++ x ∧
      prog.blockName o = x ++ "." ++ prog.blockName o'

theorem toList_describe (prog : Program) (o : OpId) : (prog.describe o).toList =
    (prog.procName (prog.procOf o)).toList ++ '.' :: (prog.blockName o).toList ++
      '[' :: (Nat.repr (prog.op o).position).toList ++ [']'] := by
  simp [describe, procOf, blockName, toString]

theorem bracket_not_mem_repr (n : Nat) : '[' ∉ (Nat.repr n).toList := by
  intro h
  rw [Nat.toList_repr] at h
  have hdigit := Nat.isDigit_of_mem_toDigits (by decide) (by decide) h
  exact absurd hdigit (by decide)

theorem blurs_iff : prog.Blurs o o' ↔ (prog.op o).position = (prog.op o').position ∧
    ∃ as, (prog.procName (prog.procOf o')).toList =
        (prog.procName (prog.procOf o)).toList ++ '.' :: as ∧
      (prog.blockName o).toList = as ++ '.' :: (prog.blockName o').toList := by
  refine and_congr_right' ⟨?_, ?_⟩
  · rintro ⟨x, hp, hb⟩
    exact ⟨x.toList, by simp [hp], by simp [hb]⟩
  · rintro ⟨as, hp, hb⟩
    refine ⟨String.ofList as, String.toList_inj.mp ?_, String.toList_inj.mp ?_⟩
    · simp [hp]
    · simp [hb]

/-- The texts agree exactly if the positions and both names do, or the names blur. -/
theorem describe_eq_iff : prog.describe o = prog.describe o' ↔
    (prog.op o).position = (prog.op o').position ∧
        prog.procName (prog.procOf o) = prog.procName (prog.procOf o') ∧
        prog.blockName o = prog.blockName o' ∨
      prog.Blurs o o' ∨ prog.Blurs o' o := by
  have hcut : prog.describe o = prog.describe o' ↔
      (prog.procName (prog.procOf o)).toList ++ '.' :: (prog.blockName o).toList =
        (prog.procName (prog.procOf o')).toList ++ '.' :: (prog.blockName o').toList ∧
      (prog.op o).position = (prog.op o').position := by
    rw [← String.toList_inj, toList_describe, toList_describe, List.append_left_inj,
      Text.append_cons_inj_of_not_mem (bracket_not_mem_repr _) (bracket_not_mem_repr _),
      Nat.toList_repr, Nat.toList_repr]
    refine and_congr_right' ⟨fun h => ?_, congrArg (Nat.toDigits 10)⟩
    have hvalue := congrArg (Nat.ofDigitChars 10 · 0) h
    rwa [Nat.ofDigitChars_ten_toDigits, Nat.ofDigitChars_ten_toDigits] at hvalue
  rw [hcut, Text.append_cons_eq_iff, blurs_iff, blurs_iff, String.toList_inj, String.toList_inj]
  constructor
  · rintro ⟨⟨hproc, hblock⟩ | ⟨as, hproc, hblock⟩ | ⟨as, hproc, hblock⟩, hpos⟩
    · exact .inl ⟨hpos, hproc, hblock⟩
    · exact .inr (.inl ⟨hpos, as, hproc, hblock⟩)
    · exact .inr (.inr ⟨hpos.symm, as, hproc, hblock⟩)
  · rintro (⟨hpos, hproc, hblock⟩ | ⟨hpos, as, hproc, hblock⟩ | ⟨hpos, as, hproc, hblock⟩)
    · exact ⟨.inl ⟨hproc, hblock⟩, hpos⟩
    · exact ⟨.inr (.inl ⟨as, hproc, hblock⟩), hpos⟩
    · exact ⟨.inr (.inr ⟨as, hproc, hblock⟩), hpos.symm⟩

/-- No names blur in one procedure: its name would be longer than itself. -/
theorem Blurs.proc_ne (h : prog.Blurs o o') : prog.procOf o ≠ prog.procOf o' := by
  obtain ⟨-, x, hproc, -⟩ := h
  intro he
  rw [he] at hproc
  have hlength := congrArg String.length hproc
  have hdot : ".".length = 1 := rfl
  rw [String.length_append, String.length_append, hdot] at hlength
  omega

end Program

variable {prog : Program}

theorem ProcedureDesc.Stands.name_eq {procs : List String} {p : ProcId} {base : BlockId}
    {start : OpId} {d : ProcedureDesc} (h : d.Stands procs prog p base start) {i : Nat}
    (hi : i < d.blocks.length) : d.blockNames[i]? = some (prog.block (base + i)).name := by
  have hblock := (h.block i _ (List.getElem?_eq_getElem hi)).block
  simp [ProcedureDesc.blockNames, Program.block, hblock, hi]

theorem ProcedureDesc.Stands.block_ext {procs : List String} {p : ProcId} {base : BlockId}
    {start : OpId} {d : ProcedureDesc} (h : d.Stands procs prog p base start)
    (hw : d.WellFormed procs) {b c : BlockId} (hb : b ∈ (prog.proc p).blocks)
    (hc : c ∈ (prog.proc p).blocks) (hname : (prog.block b).name = (prog.block c).name) :
    b = c := by
  simp only [Program.proc, h.proc, Option.getD_some, List.mem_range'_1] at hb hc
  obtain ⟨i, rfl⟩ := Nat.exists_eq_add_of_le hb.1
  obtain ⟨j, rfl⟩ := Nat.exists_eq_add_of_le hc.1
  have hi := Nat.lt_of_add_lt_add_left hb.2
  have hj := Nat.lt_of_add_lt_add_left hc.2
  have hij : i = j := by
    refine (List.getElem?_inj ?_ hw.nodup).mp ?_
    · simpa [ProcedureDesc.blockNames] using hi
    · rw [h.name_eq hi, h.name_eq hj, hname]
  rw [hij]

namespace Description

variable {d : Description}

theorem Stands.name_eq (h : d.Stands prog) {p : ProcId} (hp : p < prog.procs.size) :
    d.procNames[p]? = some (prog.procName p) := by
  have hlt : p < d.procedures.length := h.procs ▸ hp
  have hproc := (h.proc p _ (List.getElem?_eq_getElem hlt)).proc
  simp [procNames, Program.procName, Program.proc, hproc, hlt]

theorem Stands.proc_ext (h : d.Stands prog) (hw : d.WellFormed) {p q : ProcId}
    (hp : p < prog.procs.size) (hq : q < prog.procs.size)
    (hname : prog.procName p = prog.procName q) : p = q := by
  refine (List.getElem?_inj ?_ hw.nodup).mp ?_
  · simpa [procNames, ← h.procs] using hp
  · rw [h.name_eq hp, h.name_eq hq, hname]

theorem Stands.op_ext (h : d.Stands prog) (hw : d.WellFormed) (hs : prog.Shaped) {o o' : OpId}
    (ho : o < prog.ops.size) (ho' : o' < prog.ops.size)
    (hpos : (prog.op o).position = (prog.op o').position)
    (hproc : prog.procName (prog.procOf o) = prog.procName (prog.procOf o'))
    (hname : prog.blockName o = prog.blockName o') : o = o' := by
  have hb := hs.blockOf_lt ho
  have hb' := hs.blockOf_lt ho'
  have hsame : prog.procOf o = prog.procOf o' :=
    h.proc_ext hw (hs.proc_lt _ hb) (hs.proc_lt _ hb') hproc
  have hlt : prog.procOf o < d.procedures.length := h.procs ▸ hs.proc_lt _ hb
  have hpd := List.getElem?_eq_getElem hlt
  have hblock : prog.blockOf o = prog.blockOf o' :=
    (h.proc _ _ hpd).block_ext (hw.procedures _ (List.mem_of_getElem? hpd))
      ((hs.block_iff _ _).mpr ⟨hb, rfl⟩) ((hs.block_iff _ _).mpr ⟨hb', hsame.symm⟩) hname
  exact hs.op_ext ho ho' hblock hpos

theorem Stands.procName_mem (h : d.Stands prog) (hs : prog.Shaped) {o : OpId}
    (ho : o < prog.ops.size) : prog.procName (prog.procOf o) ∈ d.procNames :=
  List.mem_of_getElem? (h.name_eq (hs.proc_lt _ (hs.blockOf_lt ho)))

theorem Stands.blockName_mem (h : d.Stands prog) (hs : prog.Shaped) {o : OpId}
    (ho : o < prog.ops.size) : ∃ pd ∈ d.procedures, prog.blockName o ∈ pd.blockNames := by
  have hb := hs.blockOf_lt ho
  have hlt : prog.procOf o < d.procedures.length := h.procs ▸ hs.proc_lt _ hb
  have hpd := List.getElem?_eq_getElem hlt
  have hmem := (hs.block_iff (prog.procOf o) _).mpr ⟨hb, rfl⟩
  simp only [Program.proc, (h.proc _ _ hpd).proc, Option.getD_some, List.mem_range'_1] at hmem
  obtain ⟨i, hi⟩ := Nat.exists_eq_add_of_le hmem.1
  rw [hi] at hmem
  have hname := (h.proc _ _ hpd).name_eq (Nat.lt_of_add_lt_add_left hmem.2)
  rw [← hi] at hname
  exact ⟨_, List.mem_of_getElem? hpd, List.mem_of_getElem? hname⟩

/-- No dot stands in the name of a procedure, or none in the name of a block. -/
def Dotless (d : Description) : Prop :=
  (∀ p ∈ d.procNames, '.' ∉ p.toList) ∨ ∀ pd ∈ d.procedures, ∀ b ∈ pd.blockNames, '.' ∉ b.toList

theorem Dotless.not_blurs (hd : d.Dotless) (h : d.Stands prog) (hs : prog.Shaped) {o o' : OpId}
    (ho : o < prog.ops.size) (ho' : o' < prog.ops.size) : ¬ prog.Blurs o o' := by
  rintro ⟨-, x, hproc, hblock⟩
  rcases hd with hprocs | hblocks
  · refine hprocs _ (h.procName_mem hs ho') ?_
    simp [hproc]
  · obtain ⟨pd, hpd, hmem⟩ := h.blockName_mem hs ho
    refine hblocks pd hpd _ hmem ?_
    simp [hblock]

theorem stands_of_lower (h : d.lower = .ok prog) : d.WellFormed ∧ d.Stands prog ∧ prog.Shaped := by
  refine ⟨?_, d.lower_accepts.of_ok h, (lower_ok h).1.shaped⟩
  rcases d.lower_accepts with ⟨hw, -⟩ | ⟨-, m, hm⟩
  · exact hw
  · rw [h] at hm
    cases hm

end Description

/-- Where a step says in the JSON plan that it belongs. -/
def PlanStep.at? (prog : Program) (s : PlanStep) : Option Json :=
  match Plan.stepJson prog s with
  | .object fields => (field? fields "at").join
  | _ => none

theorem PlanStep.at?_eq (s : PlanStep) : s.at? prog = some (.text (prog.describe s.op)) := by
  obtain ⟨o, placement, block, action⟩ := s
  cases action <;> rfl

theorem PlanStep.at?_eq_at? {s s' : PlanStep} :
    s.at? prog = s'.at? prog ↔ prog.describe s.op = prog.describe s'.op := by
  rw [at?_eq, at?_eq, Json.text, Json.text]
  simp

/-- Two operations of an accepted program have the same text only if their names blur, which they
never do in one procedure, and nowhere if the procedures or the blocks are named without dots. The
steps of a plan tell their operations apart as well as the texts do. -/
theorem operation_texts_blur_only_at_dots {d : Description} (h : d.lower = .ok prog) :
    (∀ o < prog.ops.size, ∀ o' < prog.ops.size, (prog.describe o = prog.describe o' ↔
      o = o' ∨ prog.Blurs o o' ∨ prog.Blurs o' o)) ∧
    (∀ s s' : PlanStep, s.op < prog.ops.size → s'.op < prog.ops.size →
      (s.at? prog = s'.at? prog ↔ s.op = s'.op ∨ prog.Blurs s.op s'.op ∨ prog.Blurs s'.op s.op)) ∧
    (∀ o < prog.ops.size, ∀ o' < prog.ops.size, prog.procOf o = prog.procOf o' →
      prog.describe o = prog.describe o' → o = o') ∧
    (d.Dotless → ∀ o < prog.ops.size, ∀ o' < prog.ops.size,
      prog.describe o = prog.describe o' → o = o') := by
  obtain ⟨hw, hstands, hs⟩ := Description.stands_of_lower h
  have hsame : ∀ o < prog.ops.size, ∀ o' < prog.ops.size,
      (prog.describe o = prog.describe o' ↔ o = o' ∨ prog.Blurs o o' ∨ prog.Blurs o' o) := by
    intro o ho o' ho'
    rw [Program.describe_eq_iff]
    refine or_congr_left ⟨?_, ?_⟩
    · rintro ⟨hpos, hproc, hname⟩
      exact hstands.op_ext hw hs ho ho' hpos hproc hname
    · rintro rfl
      exact ⟨rfl, rfl, rfl⟩
  refine ⟨hsame, ?_, ?_, ?_⟩
  · intro s s' ho ho'
    rw [PlanStep.at?_eq_at?]
    exact hsame s.op ho s'.op ho'
  · intro o ho o' ho' hproc htext
    rcases (hsame o ho o' ho').mp htext with heq | hblurs | hblurs
    · exact heq
    · exact absurd hproc hblurs.proc_ne
    · exact absurd hproc.symm hblurs.proc_ne
  · intro hdotless o ho o' ho' htext
    rcases (hsame o ho o' ho').mp htext with heq | hblurs | hblurs
    · exact heq
    · exact absurd hblurs (hdotless.not_blurs hstands hs ho ho')
    · exact absurd hblurs (hdotless.not_blurs hstands hs ho' ho)

def Description.sharedBlockName : Description where
  procedures := [
    { name := "main",
      blocks := [{ name := "entry", ops := [.call "pthread_create" (some "worker")] }] },
    { name := "worker", blocks := [{ name := "entry" }] }]

def Program.sharedBlockName : Program where
  procs := #[⟨"main", [0], some 0⟩, ⟨"worker", [1], some 1⟩]
  blocks := #[⟨"entry", 0, [0, 1], []⟩, ⟨"entry", 1, [2], []⟩]
  ops := #[⟨0, 0, .library (.threadCreate 1)⟩, ⟨0, 1, .terminator .ret⟩, ⟨1, 0, .terminator .ret⟩]

theorem shared_block_name_is_told_apart :
    Description.sharedBlockName.lower = .ok .sharedBlockName ∧
    Description.sharedBlockName.Dotless ∧
    ∀ o < 3, ∀ o' < 3, Program.sharedBlockName.describe o = Program.sharedBlockName.describe o' →
      o = o' := by
  have hlower : Description.sharedBlockName.lower = .ok .sharedBlockName :=
    Checked.ok_of_toOption (by decide +kernel)
  have hdotless : Description.sharedBlockName.Dotless := .inl (by decide +kernel)
  obtain ⟨-, -, -, hinjective⟩ := operation_texts_blur_only_at_dots hlower
  exact ⟨hlower, hdotless, hinjective hdotless⟩

/-- The procedure `a` has the block `b.c`, and the procedure `a.b` has the block `c`. -/
def Description.dotted : Description where
  main := "a"
  procedures := [
    { name := "a", blocks := [{ name := "b.c", ops := [.call "pthread_create" (some "a.b")] }] },
    { name := "a.b", blocks := [{ name := "c" }] }]

def Program.dotted : Program where
  procs := #[⟨"a", [0], some 0⟩, ⟨"a.b", [1], some 1⟩]
  blocks := #[⟨"b.c", 0, [0, 1], []⟩, ⟨"c", 1, [2], []⟩]
  ops := #[⟨0, 0, .library (.threadCreate 1)⟩, ⟨0, 1, .terminator .ret⟩, ⟨1, 0, .terminator .ret⟩]
  entrypoint := "a"

/-- The first operations of its two threads are both shown as `a.b.c[0]`. -/
theorem dotted_names_share_a_text :
    ¬ ∀ d prog, Description.lower d = .ok prog →
      ∀ o < prog.ops.size, ∀ o' < prog.ops.size, prog.describe o = prog.describe o' → o = o' := by
  intro h
  have hlower : Description.dotted.lower = .ok .dotted := Checked.ok_of_toOption (by decide +kernel)
  have htext : Program.dotted.describe 0 = Program.dotted.describe 2 := by decide +kernel
  exact absurd (h _ _ hlower 0 (by decide) 2 (by decide) htext) (by decide)

end YieldPlan
