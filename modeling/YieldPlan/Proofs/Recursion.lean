import YieldPlan.Proofs.CallOrder
import YieldPlan.Proofs.Requests
import Mathlib.Data.String.Basic

/-! There is an order of the procedures exactly if none of them enters itself, whether it runs or
not. Otherwise one recursive component of the call graph is reported, its names sorted. -/

namespace YieldPlan

theorem sortTexts_eq (l : List String) : sortTexts l = l.insertionSort (· ≤ ·) := by
  simpa [sortTexts] using sortBy_eq (fun a b : String => decide (a ≤ b)) l

/-- A strong component of the call graph in which some procedure enters itself. -/
structure Program.IsRecursion (prog : Program) (members : List ProcId) : Prop where
  nodup : members.Nodup
  strong : ∀ p ∈ members, ∀ q, q ∈ members ↔
    Relation.ReflTransGen prog.Calls p q ∧ Relation.ReflTransGen prog.Calls q p
  cycle : ∃ p ∈ members, Relation.TransGen prog.Calls p p

theorem CallGraph.recursion_of_error {prog : Program}
    (ht : ∀ o < prog.ops.size, ∀ f, (prog.kind o).callEdge? = some f → f < prog.procs.size)
    {e : Failure} (h : prog.calls.postOrder prog = .error e) : ∃ members,
      prog.IsRecursion members ∧
      e = .error ⟨.recursion (sortTexts (members.map prog.procName)), none⟩ := by
  have hcs := Graph.components_spec (targets_closed ht)
  obtain ⟨c, hc, hrec, rfl⟩ := order_fails_at h
  refine ⟨c, ?_, rfl⟩
  constructor
  · exact (List.nodup_flatten.mp hcs.nodup).1 c hc
  · intro p hp
    exact strong_component hcs hc hp
  · exact (isRecursive_iff hcs hc).mp hrec

/-- The procedures of a program can be put in order exactly if none of them, executed or not, enters
itself through calls and thread creations. The order then lists every procedure once, after all that
it calls or spawns. Otherwise the sorted names of one recursive component are reported. -/
theorem procedures_have_order_or_recursion {prog : Program}
    (hhome : ∀ o < prog.ops.size, prog.procOf o < prog.procs.size)
    (ht : ∀ o < prog.ops.size, ∀ f, (prog.kind o).callEdge? = some f → f < prog.procs.size) :
    ∃ g, prog.callGraph = .ok g ∧
      ((∃ order, g.postOrder prog = .ok order) ↔ ∀ p, ¬ Relation.TransGen prog.Calls p p) ∧
      (∀ order, g.postOrder prog = .ok order → order.Nodup ∧
        (∀ p, p ∈ order ↔ p < prog.procs.size) ∧
        ∀ before p after, order = before ++ p :: after → ∀ q, prog.Calls p q → q ∈ before) ∧
      ∀ e, g.postOrder prog = .error e → ∃ members names, prog.IsRecursion members ∧
        e = .error ⟨.recursion names, none⟩ ∧ names.Pairwise (· ≤ ·) ∧
        names.Perm (members.map prog.procName) := by
  have hcs := Graph.components_spec (CallGraph.targets_closed ht)
  have hacyclic : ∀ order, prog.calls.postOrder prog = .ok order →
      ∀ p, ¬ Relation.TransGen prog.Calls p p := by
    intro order h p hcycle
    obtain ⟨c, hc, hrec⟩ := CallGraph.exists_recursive hcs hhome hcycle
    rw [CallGraph.isRecursive_of_order h c hc] at hrec
    cases hrec
  refine ⟨prog.calls, Program.callGraph_eq hhome ht, ⟨?_, ?_⟩, ?_, ?_⟩
  · rintro ⟨order, h⟩
    exact hacyclic order h
  · intro h
    obtain ⟨order, horder, -⟩ := CallGraph.postOrder_ok ht h
    exact ⟨order, horder⟩
  · intro order h
    obtain ⟨order', h', hspec⟩ := CallGraph.postOrder_ok ht (hacyclic order h)
    obtain rfl := Except.ok.inj (h.symm.trans h')
    exact hspec
  · intro e h
    obtain ⟨members, hrec, rfl⟩ := CallGraph.recursion_of_error ht h
    refine ⟨members, _, hrec, rfl, ?_, ?_⟩
    · rw [sortTexts_eq]
      exact List.pairwise_insertionSort _ _
    · rw [sortTexts_eq]
      exact List.perm_insertionSort _ _

/-- Two procedures enter each other, one of them by a thread creation and twice by a call. No
procedure that runs leads to them. -/
def BuildStep.deadRecursionSteps : List BuildStep :=
  [.proc "main", .proc "pong", .proc "ping", .block 0 "entry", .block 1 "entry", .block 2 "entry",
    .op 0 (.terminator .ret), .op 1 (.library (.threadCreate 2)), .op 1 (.terminator .ret),
    .op 2 (.call 1), .op 2 (.call 1), .op 2 (.call 0), .op 2 (.terminator .ret)]

def Program.deadRecursion : Program :=
  ((BuildStep.applyAll {} BuildStep.deadRecursionSteps).toOption.getD default).1

/-- Both are reported, in the order of their names. -/
theorem dead_recursion_is_reported :
    Program.deadRecursion.calls.postOrder Program.deadRecursion =
        .error (.error ⟨.recursion ["ping", "pong"], none⟩) ∧
      ∃ members, Program.deadRecursion.IsRecursion members ∧
        ["ping", "pong"].Perm (members.map Program.deadRecursion.procName) := by
  have hhome : ∀ o < Program.deadRecursion.ops.size,
      Program.deadRecursion.procOf o < Program.deadRecursion.procs.size := by decide +kernel
  have htargets : ∀ o < Program.deadRecursion.ops.size, ∀ f,
      (Program.deadRecursion.kind o).callEdge? = some f → f < Program.deadRecursion.procs.size := by
    decide +kernel
  have herror : Program.deadRecursion.calls.postOrder Program.deadRecursion =
      .error (.error ⟨.recursion ["ping", "pong"], none⟩) := by decide +kernel
  obtain ⟨g, hg, -, -, hreport⟩ := procedures_have_order_or_recursion hhome htargets
  obtain rfl := (Program.of_callGraph hg).1
  obtain ⟨members, names, hrec, he, -, hperm⟩ := hreport _ herror
  cases he
  exact ⟨herror, members, hrec, hperm⟩

end YieldPlan
