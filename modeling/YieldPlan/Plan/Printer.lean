import YieldPlan.Json.Printer
import YieldPlan.Plan
import YieldPlan.Program.Printer

/-! Plans as text, as JSON, and as remarks in the text of the program. -/

namespace YieldPlan

def ConflictCheck.text (c : ConflictCheck) : String := s!"{c.thread}#{c.block}"

def PlanAction.text : PlanAction → String
  | .yield => "yield"
  | .initPhase => "init-phase"
  | .setPhase phase => s!"set-phase {phase.name}"
  | .phaseGuardedYield => "phase-guarded-yield"
  | .conflictGuardedYield checks =>
    "conflict-guarded-yield [" ++ ", ".intercalate (checks.map ConflictCheck.text) ++ "]"

def PlanAction.fields : PlanAction → List (String × Json)
  | .yield => [("action", .text "yield")]
  | .initPhase => [("action", .text "init-phase")]
  | .setPhase phase => [("action", .text "set-phase"), ("phase", .text phase.name)]
  | .phaseGuardedYield => [("action", .text "phase-guarded-yield")]
  | .conflictGuardedYield checks =>
    [("action", .text "conflict-guarded-yield"),
      ("checks", .array (checks.map fun c =>
        .record [("thread", .text c.thread), ("block", .nat c.block)]))]

namespace Plan

variable (prog : Program)

def stepLine (s : PlanStep) : String :=
  s!"  {s.placement.name} {prog.describe s.op} #{s.block}: {s.action.text}\n"

def threadText (t : ThreadPlan) : String :=
  let many := if t.multiInstance then " (multi-instance)" else ""
  let var := match t.phaseVar with
    | some v => s!" phase={v}"
    | none => ""
  s!"thread {t.thread} {t.proc}{many}{var}\n" ++ String.join (t.steps.map (stepLine prog))

def text (plan : Plan) : String :=
  s!"mode: {plan.mode.name}\n" ++ String.join (plan.threads.map (threadText prog))

def stepJson (s : PlanStep) : Json :=
  .record ([("at", .text (prog.describe s.op)), ("placement", .text s.placement.name),
    ("block", .nat s.block)] ++ s.action.fields)

def threadJson (t : ThreadPlan) : Json :=
  let var := match t.phaseVar with
    | some v => [("phase_var", Json.text v)]
    | none => []
  .record ([("thread", .nat t.thread), ("proc", .text t.proc),
    ("multi_instance", .bool t.multiInstance)] ++ var ++
    [("actions", .array (t.steps.map (stepJson prog)))])

def toJson (plan : Plan) : Json :=
  .record [("mode", .text plan.mode.name), ("threads", .array (plan.threads.map (threadJson prog)))]

def jsonText (plan : Plan) : String := (plan.toJson prog).pretty ++ "\n"

/-- The remark at an operation: its area and what the plan puts there. An operation that was never
visited has none. -/
def remark (plan : Plan) (pt : PhaseTracker) (o : OpId) : Option String :=
  (pt.area? o).map fun area =>
    area.name ++ String.join ((plan.stepsAt o).map fun s =>
      s!" | {s.placement.name} {s.action.text}")

def annotated (plan : Plan) (pt : PhaseTracker) : Checked String :=
  prog.renderWith (plan.remark pt)

end Plan

end YieldPlan
