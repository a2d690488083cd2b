/-!
What can go wrong: faults that a unit of work logs, failures of collaborators, and errors that keep
a unit from being dispatched. Each cause has its own constructor and one text.
-/
namespace ServiceShell

/-- An `error` cannot be recovered from. -/
inductive Severity where
  | exception
  | error
deriving DecidableEq

structure Fault where
  message : String
  severity : Severity
deriving DecidableEq

namespace Fault

def exception (message : String) : Fault := ⟨message, .exception⟩

def error (message : String) : Fault := ⟨message, .error⟩

def isFatal (fault : Fault) : Bool := fault.severity = .error

end Fault

inductive RemoteError where
  | unreachable (message : String)
  | invocation (message : String)
  | discovery (message : String)
  | transaction (message : String)
deriving DecidableEq

def RemoteError.message : RemoteError → String
  | .unreachable m => s!"provider unreachable: {m}"
  | .invocation m => s!"remote invocation failed: {m}"
  | .discovery m => s!"discovery failed: {m}"
  | .transaction m => s!"transaction error: {m}"

inductive DispatchError where
  | configuration (message : String)
  | providerUnavailable (provider serviceType : String)
  | dispatchFailure (signature reason : String)
  | lockDenied (message : String)
  | routine (cause : DispatchError)
  | fault (logged : Fault)
  | remote (error : RemoteError)
deriving DecidableEq

namespace DispatchError

def message : DispatchError → String
  | .configuration m => s!"configuration error: {m}"
  | .providerUnavailable provider serviceType =>
    s!"provider key: [{provider}], type: {serviceType} not found, make sure it is running and " ++
      "there is an available discovery service"
  | .dispatchFailure signature reason => s!"dispatch failed for signature {signature}: {reason}"
  | .lockDenied m => s!"no lock available for: {m}"
  | .routine cause => s!"routine failure: {cause.message}"
  | .fault logged => logged.message
  | .remote error => error.message

/-- Marks an error as the failure of a routine, once. -/
def asRoutine : DispatchError → DispatchError
  | .routine cause => .routine cause
  | other => .routine other

def rootCause : DispatchError → DispatchError
  | .routine cause => cause.rootCause
  | other => other

def sources : DispatchError → List DispatchError
  | .routine cause => cause :: cause.sources
  | _ => []

/-- A fault passes unchanged; any other error is logged as an exception with its text. -/
def toFault : DispatchError → Fault
  | .fault logged => logged
  | other => .exception other.message

end DispatchError
end ServiceShell
