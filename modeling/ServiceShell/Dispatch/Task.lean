import ServiceShell.Dispatch.Sending
/-!
Execution of tasks: in place of a task the first of its errands runs; a task with a model computes
it; several signatures make a flow of steps; and a single signature is performed.
-/
namespace ServiceShell.Shell

variable {σ : Type}

abbrev StepResult := Option (List Fault)

/-- Dispatches one signature of a flow as a task over the data of the flow. The data is changed only
by a step that succeeds. -/
def runStep (shell : Shell σ) (call : Call) (core : Core) (signature : Signature) :
    Run σ (Core × StepResult) := do
  let id ← Run.draw shell.collaborators.freshId
  let fresh := Core.fresh id s!"{core.name}:{signature.selector}"
  let fresh := { fresh with context := core.context }
  let own := signature.withRole .process
  let fresh := fresh.mapControl ({ · with fidelities := .ofSignatures [own] })
  let ended ← shell.supervise call.inner ⟨fresh, .task none []⟩ fun step =>
    proceed call.inner step fun core _ => shell.perform call.inner core (.task none [])
  let step := ended.work.core
  if step.hasFailed || !step.exceptions.isEmpty then
    Run.note (.stepFailed step.name core.name)
    return (core, some step.exceptions)
  else return (core.mapContext (·.overlay step.context), none)

def runUntilFailure (step : Core → Signature → Run σ (Core × StepResult)) (core : Core) :
    List Signature → Run σ (Core × StepResult)
  | [] => return (core, none)
  | signature :: rest => do
    match ← step core signature with
    | (core, none) => runUntilFailure step core rest
    | (core, some faults) => return (core, some faults)

def runUntilSuccess (step : Core → Signature → Run σ (Core × StepResult)) (core : Core)
    (faults : List Fault) : List Signature → Run σ (Core × StepResult)
  | [] => return (core, some faults)
  | signature :: rest => do
    match ← step core signature with
    | (core, none) => return (core, none)
    | (core, some more) => runUntilSuccess step core (faults ++ more) rest

def failWith (core : Core) (faults : List Fault) (summary : String) : Core :=
  if faults.isEmpty then core.fail (.exception s!"{summary} in task '{core.name}'")
  else faults.foldl Core.fail core

/-- Runs every signature for preparation, then the alternatives of the process until one succeeds,
then every signature for postprocessing. The first of these that fails ends the task. -/
def runFlow (step : Core → Signature → Run σ (Core × StepResult)) (core : Core) : Run σ Core := do
  let selects := core.fidelities.selects
  let inRole := fun role => selects.filter fun signature => signature.role = role
  match ← runUntilFailure step core (inRole .prepare) with
  | (core, some faults) => return failWith core faults "prepare step failed"
  | (core, none) =>
    match ← runUntilSuccess step core [] (inRole .process) with
    | (core, some faults) => return failWith core faults "no process signature succeeded"
    | (core, none) =>
      match ← runUntilFailure step core (inRole .postprocess) with
      | (core, some faults) => return failWith core faults "postprocess step failed"
      | (core, none) => return core

def compute (core : Core) (procedures : List Procedure) (failure : String → Fault → Note) :
    Run σ Core := do
  Run.emit (.computed core.id procedures)
  let (context, fault) := Procedure.runAll procedures core.context
  let core := { core with context }
  match fault with
  | none => return core
  | some fault =>
    Run.note (failure core.name fault)
    return core.fail fault

def runPlain (shell : Shell σ) (call : Call) (core : Core) (model : Option (List Procedure)) :
    Run σ Attempt := do
  let body := Body.task model []
  match model, core.fidelities.selects with
  | some procedures, [] | some procedures, [_] =>
    return ⟨⟨← compute core procedures .taskModelFailed, body⟩, .ok .model⟩
  | _, _ :: _ :: _ =>
    return ⟨⟨← runFlow (shell.runStep call) core, body⟩, .ok .controlFlow⟩
  | none, _ => shell.perform call core body

/-- Executes a task; its errands are used up. -/
def runTask (shell : Shell σ) (call : Call) (core : Core) (model : Option (List Procedure)) :
    List Errand → Run σ Attempt
  | [] => shell.runPlain call core model
  | errand :: errands => do
    let (core, result) ← delegateTo core ⟨errand.core, .task errand.model errands⟩ fun standIn =>
      shell.supervise call.deeper standIn fun standIn =>
        proceed call.deeper standIn fun core _ =>
          shell.runTask call.deeper core errand.model errands
    return ⟨⟨core, .task model []⟩, result.map fun _ => .delegate⟩

end ServiceShell.Shell
