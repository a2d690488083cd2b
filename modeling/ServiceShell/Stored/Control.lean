import ServiceShell.Control
import ServiceShell.Stored.Signature
/-!
The stored form of control data and of faults.
-/
namespace ServiceShell

open Json (Value Reader Fields)

def State.tag : State → String
  | initial => "Initial"
  | running => "Running"
  | suspended => "Suspended"
  | done => "Done"
  | failed => "Failed"
  | error => "Error"

def State.all : List State := [initial, running, suspended, done, failed, error]

def State.reader : Reader State := .named (State.all.map fun state => (state.tag, state))

namespace Control

def stored (control : Control) : Value :=
  .object [("exec_state", .string control.state.tag), ("access", .string control.access.tag),
    ("fidelities", control.fidelities.stored), ("trace", .ofStrings control.trace),
    ("mutex_id", .ofOption (fun id => .string id.text) control.lockHolder),
    ("initializable", .bool control.initializable)]

def reader : Reader Control := fun allowance document => do
  let fields ← Fields.read
    ["exec_state", "access", "fidelities", "trace", "mutex_id", "initializable"] allowance document
  return {
    state := ← fields.required "exec_state" State.reader
    access := ← fields.required "access" Access.reader
    fidelities := ← fields.required "fidelities" Fidelities.reader
    trace := ← fields.required "trace" (.list .string)
    lockHolder := ← fields.optional "mutex_id" Uuid.reader
    initializable := ← fields.required "initializable" .bool }

end Control

def Severity.tag : Severity → String
  | exception => "Exception"
  | error => "Error"

def Severity.reader : Reader Severity :=
  .named ([exception, error].map fun severity => (severity.tag, severity))

def Fault.stored (fault : Fault) : Value :=
  .object [("message", .string fault.message), ("severity", .string fault.severity.tag)]

def Fault.reader : Reader Fault := fun allowance document => do
  let fields ← Fields.read ["message", "severity"] allowance document
  return ⟨← fields.required "message" .string, ← fields.required "severity" Severity.reader⟩

end ServiceShell
