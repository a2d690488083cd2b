import ServiceShell.Fidelity
import ServiceShell.Uuid
/-!
The control data of a unit of work: how it is to be executed and how far it has come.
-/
namespace ServiceShell

inductive State where
  | initial
  | running
  | suspended
  | done
  | failed
  | error
deriving DecidableEq

namespace State

def isFailure : State → Bool
  | failed | error => true
  | _ => false

/-- From these states a dispatch goes on with what the unit has accumulated. -/
def isResumable : State → Bool
  | suspended | failed => true
  | _ => false

def ofFault (fault : Fault) : State :=
  if fault.isFatal then .error else .failed

end State

structure Control where
  state : State
  access : Access
  fidelities : Fidelities
  trace : List String
  lockHolder : Option Uuid
  /-- Whether a unit in its initial state is reset before dispatch. -/
  initializable : Bool

namespace Control

def default : Control := ⟨.initial, .push, .empty, [], none, true⟩

def note (control : Control) (line : String) : Control :=
  { control with trace := control.trace ++ [line] }

def noteService (control : Control) (signature : Signature) : Control :=
  control.note s!"service shell for signature: {signature.text}"

def mapFidelities (control : Control) (change : Fidelities → Fidelities) : Control :=
  { control with fidelities := change control.fidelities }

end Control
end ServiceShell
