import ServiceShell.Dispatch.Task
/-!
Execution of composites: the children run one after the other, each with the context of its parent
as its scope, and what a child holds in the end is copied into the parent.
-/
namespace ServiceShell.Shell

variable {σ : Type}

structure Runner (σ : Type) where
  child : Work
  dispatch : Core → Run σ Dispatched

/-- Runs a child inside the context of its parent; afterwards it has no scope. -/
def Runner.runIn (runner : Runner σ) (kind : Kind) (parent : String) (context : Context) :
    Run σ Work := do
  let ended ← runner.dispatch (runner.child.core.mapContext (·.withScope context))
  match ended.result with
  | .ok () => pure ()
  | .error error => Run.note (.childAborted ended.work.name kind parent error)
  return ended.work.mapCore (·.mapContext .clearScope)

structure Children where
  context : Context
  children : List Work
  failed : List Work

/-- Runs the children of a job; a resuming one leaves out those that are done. A child that fails
does not stop the others. -/
def runJobChildren (job : String) (resuming : Bool) : Context → List (Runner σ) → Run σ Children
  | context, [] => return ⟨context, [], []⟩
  | context, runner :: rest => do
    if resuming && runner.child.core.status = .done then
      let later ← runJobChildren job resuming context rest
      return { later with children := runner.child :: later.children }
    else
      let child ← runner.runIn .job job context
      let later ← runJobChildren job resuming (context.overlay child.core.context) rest
      return ⟨later.context, child :: later.children,
        if child.core.hasFailed then child :: later.failed else later.failed⟩

def runJob (core : Core) (resuming : Bool) (runners : List (Runner σ)) :
    Run σ (Core × List Work) := do
  let run ← runJobChildren core.name resuming core.context runners
  let core := { core with context := run.context }
  if run.failed.isEmpty then return (core, run.children)
  else
    Run.note (.jobFailed core.name (run.failed.map Work.name))
    return (core.setStatus .failed, run.children)

def runBlockChildren (block : String) (resuming : Bool) : Context → List (Runner σ) → Run σ Children
  | context, [] => return ⟨context, [], []⟩
  | context, runner :: rest => do
    if resuming && runner.child.core.status = .done then
      let later ← runBlockChildren block resuming context rest
      return { later with children := runner.child :: later.children }
    else
      let child ← runner.runIn .block block context
      let context := context.overlay child.core.context
      if child.core.hasFailed then
        Run.note (.blockStopped block child.name)
        return ⟨context, child :: rest.map Runner.child, [child]⟩
      else
        let later ← runBlockChildren block resuming context rest
        return { later with children := child :: later.children }

def runBlock (core : Core) (resuming : Bool) (runners : List (Runner σ)) :
    Run σ (Core × List Work) := do
  let run ← runBlockChildren core.name resuming core.context runners
  let core := { core with context := run.context }
  match run.failed with
  | [] => return (core, run.children)
  | child :: _ => return (core.setStatus child.core.status, run.children)

/-- Whether a composite runs its children in this process: it has no process signature, or one with
an operation of its own. -/
def runsHere (core : Core) : Bool :=
  match core.processSignature with
  | some signature => signature.isLocal
  | none => true

mutual
def execute (shell : Shell σ) (call : Call) (core : Core) (resuming : Bool) :
    Body Work → Run σ Attempt
  | .model procedures => do
    return ⟨⟨← compute core procedures .modelFailed, .model procedures⟩, .ok .model⟩
  | .task model errands => shell.runTask call core model errands
  | .job dependencies children => do
    match Job.order children dependencies with
    | .error error =>
      match error with
      | .invalid issues => Run.noteAll (Job.summary core.name issues)
      | .cyclic _ => pure ()
      return ⟨⟨core, .job dependencies children⟩, .error (error.toDispatchError core.name)⟩
    | .ok order =>
      if runsHere core then
        let ordered := Job.arrange (shell.runners call.inner children) order
        let (core, children) ← runJob core resuming ordered
        return ⟨⟨core, .job dependencies children⟩, .ok .inProcess⟩
      else shell.send call ⟨core, .job dependencies (Job.arrange children order)⟩
  | .block declared children => do
    if runsHere core then
      let (core, children) ← runBlock core resuming (shell.runners call.inner children)
      return ⟨⟨core, .block declared children⟩, .ok .inProcess⟩
    else shell.send call ⟨core, .block declared children⟩

def runner (shell : Shell σ) (call : Call) : Work → Runner σ
  | ⟨core, body⟩ =>
    { child := ⟨core, body⟩
      dispatch := fun core => shell.supervise call ⟨core, body⟩ fun child =>
        proceed call child fun core resuming => shell.execute call core resuming body }

def runners (shell : Shell σ) (call : Call) : List Work → List (Runner σ)
  | [] => []
  | child :: rest => shell.runner call child :: shell.runners call rest
end

end ServiceShell.Shell
