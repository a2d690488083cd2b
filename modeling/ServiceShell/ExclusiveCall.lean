import ServiceShell.Run
/-!
Calls of a provider, and the bracket around the call of an exclusive one: a fresh transaction, the
lock inside it, the call, and the end of the transaction in every case.
-/
namespace ServiceShell

variable {σ : Type}

namespace Collaborators

def call (c : Collaborators σ) (provider : Provider) (work : Work) (txn : Option Transaction)
    (args : List Argument) : Run σ (Except RemoteError (Option Work)) :=
  .ask (c.invoke provider work txn args) (.invoked provider work txn args)

end Collaborators

namespace Exclusion

def abortQuietly (exclusion : Exclusion σ) (txn : Transaction) : Run σ Unit := do
  match ← Run.ask (exclusion.abort txn) (.aborted txn) with
  | .ok () => return ()
  | .error error => Run.note (.abortFailed txn error)

/-- Locks are held by the pair of a type of service and a provider. -/
def key (work : Work) (provider : Provider) : String :=
  let type := match work.core.processSignature with
    | some signature => signature.type
    | none => ""
  s!"{type}:{provider.id}"

def isGranted (exclusion : Exclusion σ) (key : String) (owner : Uuid) (txn : Transaction) :
    Run σ Bool := do
  match ← Run.ask (exclusion.acquire key owner txn) (.locked key owner txn) with
  | .ok granted => return granted
  | .error error =>
    Run.note (.lockFailed key error)
    return false

/-- Ends a transaction whose call returned. A failed commit is aborted, and noted on the unit. -/
def close (exclusion : Exclusion σ) (key : String) (txn : Transaction) (result : Option Work) :
    Run σ (Option Work) := do
  match ← Run.ask (exclusion.commit txn) (.committed txn) with
  | .ok () => return result
  | .error error =>
    Run.note (.commitFailed txn key error)
    exclusion.abortQuietly txn
    let fault := Fault.exception s!"transaction commit failed: {error.message}"
    return result.map (·.mapCore (·.report fault))

/-- Calls a provider under its lock inside a fresh transaction. The provider itself still receives
the transaction of the caller. The unit that is sent names the provider as the lock holder. -/
def call (exclusion : Exclusion σ) (c : Collaborators σ) (provider : Provider) (work : Work)
    (ambient : Option Transaction) (args : List Argument) :
    Run σ (Work × Except DispatchError (Option Work)) := do
  let key := key work provider
  match ← Run.ask exclusion.create .created with
  | .error error => return (work, .error (.remote error))
  | .ok txn =>
    if ← exclusion.isGranted key work.core.id txn then
      let work := work.mapCore (·.mapControl ({ · with lockHolder := some provider.id }))
      match ← c.call provider work ambient args with
      | .ok result => return (work, .ok (← exclusion.close key txn result))
      | .error error =>
        exclusion.abortQuietly txn
        return (work, .error (.remote error))
    else
      exclusion.abortQuietly txn
      return (work, .error (.lockDenied s!"{provider.name}:{provider.id}"))

end Exclusion
end ServiceShell
