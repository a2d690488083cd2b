import ServiceShell.Note
import ServiceShell.Telemetry
/-!
The history of a dispatch: what a shell asked of its collaborators and what they answered, what ran
in this process, and what was reported.
-/
namespace ServiceShell

inductive Event where
  | note (note : Note)
  /-- A unit came past the depth guard and is being dispatched. -/
  | dispatched (depth : Nat) (unit : Work)
  | located (name : String) (signature : Signature) (answer : Except RemoteError (Option Handle))
  | found (signature : Signature) (answer : Except RemoteError (Option Handle))
  | pinged (provider : Provider) (answer : Except RemoteError Unit)
  | invoked (provider : Provider) (sent : Work) (txn : Option Transaction) (args : List Argument)
      (answer : Except RemoteError (Option Work))
  | created (answer : Except RemoteError Transaction)
  | locked (key : String) (owner : Uuid) (txn : Transaction) (answer : Except RemoteError Bool)
  | committed (txn : Transaction) (answer : Except RemoteError Unit)
  | aborted (txn : Transaction) (answer : Except RemoteError Unit)
  | realized (unit : Uuid) (depender : String)
  | operated (unit : Uuid) (signature : Signature)
  | computed (unit : Uuid) (procedures : List Procedure)
  | stored (slot : String) (value : Json.Value)
  | recorded (entry : TraceEntry)
  | flushed

namespace Event

/-- The line that an event leaves in the log; with `reporting`, reports are logged as well. -/
def logLine? (reporting : Bool) : Event → Option (Level × String)
  | note n => some n.line
  | recorded entry =>
    if reporting then some (if entry.status.isFailure then .warn else .info, entry.logText)
    else none
  | _ => none

def slotValue? (slot : String) (events : List Event) : Option Json.Value :=
  events.reverse.findSome? fun
    | stored other value => if other = slot then some value else none
    | _ => none

end Event

def Collector.absorb (collector : Collector) (events : List Event) : Collector :=
  events.foldl (fun collector event =>
    match event with
    | .recorded entry => collector.record entry
    | .flushed => collector.flush
    | _ => collector) collector

end ServiceShell
