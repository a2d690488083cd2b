import ServiceShell.Dispatch.Tree
import ServiceShell.Evaluation
/-!
The shell: dispatches units of work and takes their results.
-/
namespace ServiceShell.Shell

variable {σ : Type}

def selectFidelity (args : List Argument) (work : Work) : Except DispatchError Fidelities :=
  match Argument.fidelity? args with
  | some name => work.core.fidelities.select name
  | none => .ok work.core.fidelities

/-- Prepares the unit that a caller hands in: its fidelity is selected, the entries among the
arguments are put into it, and it is reset unless it says otherwise. -/
def prepare (args : List Argument) (work : Work) : Except DispatchError Work := do
  let fidelities ← selectFidelity args work
  let work := work.mapCore (·.mapControl ({ · with fidelities }))
  let work := work.substitute args
  return if work.core.control.initializable then work.reset args else work

def dispatch (shell : Shell σ) (call : Call) (work : Work) : Run σ Dispatched := do
  let ended ← shell.supervise call work fun work =>
    match prepare call.args work with
    | .error error => pure ⟨work, .error error⟩
    | .ok work =>
      proceed call work fun core resuming => shell.execute call core resuming work.body
  Run.emit .flushed
  return ended

/-- Dispatches a unit. An error that kept it from running is returned, and logged on the unit. -/
def trySubmit (shell : Shell σ) (work : Work) (txn : Option Transaction) (args : List Argument) :
    Run σ Dispatched :=
  shell.dispatch ⟨0, txn, none, args⟩ work

def settle (ended : Dispatched) : Run σ Work := do
  match ended.result with
  | .ok () => pure ()
  | .error error => Run.note (.returnedWithError ended.work.name error)
  return ended.work

/-- Dispatches a unit; failures of any kind are found on the unit alone. -/
def submit (shell : Shell σ) (work : Work) (txn : Option Transaction) (args : List Argument) :
    Run σ Work := do
  settle (← shell.trySubmit work txn args)

def submitTo (shell : Shell σ) (work : Work) (txn : Option Transaction) (provider : String)
    (args : List Argument) : Run σ Work := do
  settle (← shell.dispatch ⟨0, txn, some provider, args⟩ work)

/-- Dispatches a unit and takes its result; a finalized unit is read back without a dispatch. Only
errors of configuration are returned, any other failure shows in the trace that is the result. -/
def evaluate (shell : Shell σ) (work : Work) (args : List Argument) :
    Run σ (Work × Except DispatchError Evaluation) := do
  let finish := fun (work : Work) =>
    let (result, work) := work.finalize args
    (work, .ok result)
  if work.core.context.finalized then return finish work
  else
    let ended ← shell.trySubmit work none args
    match ended.result with
    | .ok () => return finish ended.work
    | .error error =>
      match error.rootCause with
      | .configuration _ => return (ended.work, .error error)
      | _ =>
        Run.note (.evaluatesToTrace ended.work.name error)
        return finish ended.work

end ServiceShell.Shell
