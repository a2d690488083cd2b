import ServiceShell.Dispatch.Supervision
import ServiceShell.ExclusiveCall
import ServiceShell.Normalization
/-!
Execution of a single signature: by an operation in this process, by a provider that it resolves to,
or by in-process code that stands in for one.
-/
namespace ServiceShell.Shell

variable {σ : Type}

/-- Runs an in-process operation on the context of a task. What it wrote before a fault stays. -/
def operate (core : Core) (signature : Signature) (operation : Operation) : Run σ Core := do
  let core := core.mapControl (·.noteService signature)
  Run.emit (.operated core.id signature)
  let (context, fault) := operation signature.selector core.context
  let core := { core with context }
  match fault with
  | none => return core
  | some fault =>
    Run.note (.taskFailed core.name fault)
    return core.fail fault

def takeBack (core result : Core) : Core :=
  let core := core.mapContext (·.overlay result.context)
  let core := { core with exceptions := core.exceptions ++ result.exceptions }
  if result.hasFailed then core.setStatus result.status else core

def delegateTo (core : Core) (standIn : Work) (dispatch : Work → Run σ Dispatched) :
    Run σ (Core × Except DispatchError Unit) := do
  let core := match standIn.core.processSignature with
    | some signature => core.mapControl (·.noteService signature)
    | none => core
  let ended ← dispatch (standIn.mapCore (·.mapContext (·.overlay core.context)))
  match ended.result with
  | .error error => return (core, .error error)
  | .ok () => return (takeBack core ended.work.core, .ok ())

def dispatchOwn (shell : Shell σ) (call : Call) (own : Signature) (operation : Operation)
    (work : Work) : Run σ Dispatched :=
  shell.supervise call work fun work => proceed call work fun core _ => do
    return ⟨⟨← operate core own operation, .task none []⟩, .ok .inProcess⟩

def runStandIn (shell : Shell σ) (call : Call) (core : Core) (signature : Signature)
    (operation : Operation) : Run σ (Core × Except DispatchError Unit) := do
  let id ← Run.draw shell.collaborators.freshId
  let own := Signature.object signature.selector signature.type operation
  delegateTo core (.ofSignature id core.name own) (shell.dispatchOwn call.deeper own operation)

/-- Takes over the unit that a provider returned. Exceptions beyond the first `logged` fail it. -/
def accept (result : Work) (logged : Nat) : Run σ Work := do
  let fresh := result.core.exceptions.drop logged
  Run.noteAll (fresh.map (.providerFault result.name))
  if fresh.isEmpty then return result
  else return result.mapCore (·.setStatus (if fresh.any Fault.isFatal then .error else .failed))

def callError (signature : Signature) : DispatchError → DispatchError
  | .lockDenied message => .lockDenied message
  | error => .dispatchFailure signature.text error.message

/-- What a provider answers to a unit, next to the unit as it was sent. An exclusive provider is not
asked where no lock service is configured. -/
def answer? (shell : Shell σ) (call : Call) (provider : Provider) (work : Work) :
    Run σ (Option (Work × Except DispatchError (Option Work))) :=
  match provider.exclusive, shell.collaborators.exclusion with
  | false, _ => do
    match ← shell.collaborators.call provider work call.txn call.args with
    | .ok result => return some (work, .ok result)
    | .error error => return some (work, .error (.remote error))
  | true, some exclusion =>
    some <$> exclusion.call shell.collaborators provider work call.txn call.args
  | true, none => return none

def takeAnswer (provider : Provider) (signature : Signature) (logged : Nat) (sent : Work) :
    Except DispatchError (Option Work) → Run σ Work
  | .ok (some result) => accept result logged
  | .ok none => do
    let error := DispatchError.dispatchFailure signature.text
      s!"provider '{provider.name}' returned no result"
    Run.note (.callFailed error)
    return sent.mapCore (·.fail error.toFault)
  | .error error => do
    let error := callError signature error
    Run.note (match error with
      | .lockDenied _ => .callDenied error
      | _ => .callFailed error)
    return sent.mapCore (·.fail error.toFault)

/-- Sends a unit to a provider. Only what can travel is sent. -/
def callProvider (shell : Shell σ) (call : Call) (provider : Provider) (work : Work)
    (signature : Signature) : Run σ (Work × Except DispatchError Unit) := do
  let work := work.strip.mapCore (·.mapControl (·.noteService signature))
  match ← shell.answer? call provider work with
  | none =>
    let error := s!"provider '{provider.name}' requires exclusive access " ++
      "but no lock service is configured"
    return (work, .error (.configuration error))
  | some (sent, answer) =>
    return (← takeAnswer provider signature work.core.exceptions.length sent answer, .ok ())

def correctSignature (shell : Shell σ) (work : Work) : Run σ (Signature × Work) := do
  let requested := work.requestedSignature
  let corrected := work.correctedSignature shell.config.queueName
  if corrected.type ≠ requested.type then
    Run.noteAll [.signatureBefore requested, .signatureAfter corrected]
  return (corrected, work.correct shell.config.queueName)

def withRequestedProvider (call : Call) (signature : Signature) (work : Work) : Signature × Work :=
  match call.provider with
  | some name =>
    if name.isEmpty then (signature, work)
    else
      let signature := signature.withProvider (.named name)
      (signature, work.mapCore (·.setProcessSignature signature))
  | none => (signature, work)

def handOver (shell : Shell σ) (call : Call) (work : Work) (signature : Signature) :
    Handle → Run σ Attempt
  | .provider provider => do
    let (work, result) ← shell.callProvider call provider work signature
    return ⟨work, result.map fun _ => .remote⟩
  | .standIn operation =>
    match work.body with
    | .task .. => do
      let (core, result) ← shell.runStandIn call work.core signature operation
      return ⟨{ work with core }, result.map fun _ => .delegate⟩
    | _ =>
      let error := s!"an in-process delegate cannot execute {work.kind.text} '{work.name}'"
      return ⟨work, .error (.configuration error)⟩

def send (shell : Shell σ) (call : Call) (work : Work) : Run σ Attempt := do
  let (signature, work) ← shell.correctSignature work
  if !signature.isSelectable then
    Run.note (.unselectable signature)
    let fault := Fault.exception s!"No such operation in the requested signature: {signature.text}"
    return ⟨work.mapCore (·.fail fault), .ok .unselectable⟩
  else
    let (signature, work) := withRequestedProvider call signature work
    match ← shell.collaborators.resolve signature with
    | .error error => return ⟨work, .error error⟩
    | .ok handle => shell.handOver call work signature handle

def perform (shell : Shell σ) (call : Call) (core : Core) (body : Body Work) : Run σ Attempt := do
  match core.processSignature with
  | some signature =>
    match signature.target with
    | some operation => return ⟨⟨← operate core signature operation, body⟩, .ok .inProcess⟩
    | none => shell.send call ⟨core, body⟩
  | none => shell.send call ⟨core, body⟩

end ServiceShell.Shell
