import ServiceShell.Config
import ServiceShell.Resolution
import ServiceShell.Work.Tree
/-!
What surrounds the execution of every unit: the limit on delegation, dependers in front, persisters
and the report behind. An error that kept the unit from running is returned and logged on it.
-/
namespace ServiceShell

variable {σ : Type}

structure Shell (σ : Type) where
  config : Config
  collaborators : Collaborators σ

structure Call where
  depth : Nat
  txn : Option Transaction
  provider : Option String
  args : List Argument

namespace Call

def inner (call : Call) : Call := { call with provider := none, args := [] }

def deeper (call : Call) : Call := { call.inner with depth := call.depth + 1 }

end Call

structure Attempt where
  work : Work
  result : Except DispatchError Route

structure Dispatched where
  work : Work
  result : Except DispatchError Unit

namespace Shell

def persist (work : Work) : Run σ Unit := fun world =>
  let events := work.units.flatMap fun unit => unit.core.persisters.map fun persister =>
    match unit.core.context.get? persister.source with
    | some value => .stored persister.slot value
    | none => .note (.nothingToPersist persister.source unit.name)
  ⟨(), world, events⟩

def record (shell : Shell σ) (work : Work) (route : Route) : Run σ Unit := fun world =>
  let entry := TraceEntry.ofCore (shell.collaborators.now world.env) work.core work.kind route
  ⟨(), world, [.recorded entry]⟩

def tooDeep (shell : Shell σ) (unit : String) : DispatchError :=
  .configuration s!"delegation deeper than {shell.config.maxDelegationDepth} levels at '{unit}'"

/-- Executes a unit unless it is delegated too deeply, and reports it. -/
def supervise (shell : Shell σ) (call : Call) (work : Work) (execute : Work → Run σ Attempt) :
    Run σ Dispatched := do
  if shell.config.maxDelegationDepth < call.depth then
    let error := (shell.tooDeep work.name).asRoutine
    Run.note (.refused error)
    return ⟨work.mapCore (·.fail error.toFault), .error error⟩
  else
    Run.emit (.dispatched call.depth work)
    Run.note (.dispatching work.kind work.name)
    let attempt ← execute work
    match attempt.result with
    | .ok route =>
      if !attempt.work.core.hasFailed then persist attempt.work
      shell.record attempt.work route
      return ⟨attempt.work, .ok ()⟩
    | .error error =>
      let error := error.asRoutine
      Run.note (.dispatchFailed attempt.work.name error)
      let work := attempt.work.mapCore (·.fail error.toFault)
      shell.record work .aborted
      return ⟨work, .error error⟩

def realize (args : List Argument) : List Depender → Core → Run σ (Core × Except DispatchError Unit)
  | [], core => return (core, .ok ())
  | depender :: rest, core => do
    Run.emit (.realized core.id depender.name)
    let (context, fault) := depender.realize core.context args
    let core := { core with context }
    match fault with
    | none => realize args rest core
    | some fault =>
      Run.note (.dependerFailed depender.name core.name fault)
      return (core, .error (DispatchError.fault fault).asRoutine)

/-- Realizes the dependers and lets the running unit take its route, which is told whether the unit
resumes earlier work. A unit that still runs afterwards is done. -/
def proceed (call : Call) (work : Work) (route : Core → Bool → Run σ Attempt) : Run σ Attempt := do
  let resuming := work.core.status.isResumable
  match ← realize call.args work.core.dependers work.core with
  | (core, .error error) => return ⟨{ work with core }, .error error⟩
  | (core, .ok ()) =>
    let attempt ← route (core.setStatus .running) resuming
    match attempt.result with
    | .ok _ => return { attempt with work := attempt.work.mapCore Core.finish }
    | .error _ => return attempt

end Shell
end ServiceShell
