import ServiceShell.Stored.Control
import ServiceShell.Work.Basic
/-!
Changes that a caller makes to a unit of work between dispatches, and what each of them answers.
-/
namespace ServiceShell.Rehearsal

open Json (Value)

inductive Edit where
  | put (path : String) (value : Value)
  | remove (path : String)
  | setScope (scope : Context)
  | clearScope
  | setRequest (path : RequestPath)
  | overlay (context : Context)
  | setStatus (status : State)
  | setState (state : State)
  | setAccess (access : Access)
  | setInitializable (initializable : Bool)
  | setLockHolder (id : Uuid)
  | note (line : String)
  | clearTrace
  | report (fault : Fault)
  | fail (fault : Fault)
  | select (fidelity : String)
  | addFidelity (fidelity : Fidelity)
  | setProcess (signature : Signature)
  | strip
  | loadControl (text : String)

inductive Answer where
  | nothing
  | value (previous : Option Value)
  | selected (result : Except DispatchError Unit)
  | unreadable

namespace Edit

def onFidelities (fidelities : Fidelities) : Edit → Fidelities × Except DispatchError Unit
  | select name =>
    match fidelities.select name with
    | .ok selected => (selected, .ok ())
    | .error error => (fidelities, .error error)
  | addFidelity fidelity => (fidelities.add fidelity, .ok ())
  | setProcess signature => (fidelities.setProcessSignature signature, .ok ())
  | strip => (fidelities.strip, .ok ())
  | _ => (fidelities, .ok ())

def onContext (context : Context) : Edit → Context
  | put path value => context.put path value
  | remove path => context.remove path
  | setScope scope => context.withScope scope
  | clearScope => context.clearScope
  | setRequest path => { context with request := some path }
  | overlay other => context.overlay other
  | _ => context

def onControl (control : Control) : Edit → Control
  | setState state => { control with state }
  | setAccess access => { control with access }
  | setInitializable initializable => { control with initializable }
  | setLockHolder id => { control with lockHolder := some id }
  | note line => control.note line
  | clearTrace => { control with trace := [] }
  | edit => control.mapFidelities fun fidelities => (edit.onFidelities fidelities).1

def onCore (core : Core) : Edit → Core
  | setStatus status => core.setStatus status
  | report fault => core.report fault
  | fail fault => core.fail fault
  | loadControl text =>
    match Control.reader.ofText text with
    | some control => { core with control }
    | none => core
  | edit => (core.mapContext edit.onContext).mapControl edit.onControl

def apply (edit : Edit) (work : Work) : Work := work.mapCore edit.onCore

def answer (edit : Edit) (work : Work) : Answer :=
  match edit with
  | put path _ | remove path => .value (work.core.context.entries.get? path)
  | select name => .selected (work.core.fidelities.select name |>.map fun _ => ())
  | loadControl text => if (Control.reader.ofText text).isSome then .nothing else .unreadable
  | _ => .nothing

end Edit
end ServiceShell.Rehearsal
