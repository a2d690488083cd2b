import ServiceShell.Stored.Control
import ServiceShell.Work.Basic
/-!
What is reported of every dispatched unit once it has run, and a collector that keeps the reports.
-/
namespace ServiceShell

open Json (Value Reader Fields)

inductive Route where
  | inProcess
  | delegate
  | model
  | controlFlow
  | remote
  | unselectable
  | aborted
deriving DecidableEq

def Route.text : Route → String
  | inProcess => "local"
  | delegate => "delegate"
  | model => "model"
  | controlFlow => "control-flow"
  | remote => "remote"
  | unselectable => "unselectable"
  | aborted => "aborted"

def Route.all : List Route :=
  [inProcess, delegate, model, controlFlow, remote, unselectable, aborted]

def Kind.tag : Kind → String
  | task => "Task"
  | job => "Job"
  | block => "Block"
  | model => "Model"

def Kind.reader : Reader Kind :=
  .named ([task, job, block, model].map fun kind => (kind.tag, kind))

structure TraceEntry where
  timestamp : Nat
  unit : Uuid
  name : String
  kind : Kind
  route : String
  signature : Option String
  status : State
  metadata : OrderedMap String

namespace TraceEntry

def ofCore (timestamp : Nat) (core : Core) (kind : Kind) (route : Route) : TraceEntry where
  timestamp
  unit := core.id
  name := core.name
  kind
  route := route.text
  signature := core.processSignature.map Signature.text
  status := core.status
  metadata := .ofList <|
    (core.control.lockHolder.map fun id => ("mutex_id", id.text)).toList ++
      if core.exceptions.isEmpty then [] else [("exceptions", toString core.exceptions.length)]

def logText (entry : TraceEntry) : String :=
  let signature := entry.signature.getD "-"
  s!"{entry.kind.text} '{entry.name}' [{signature}] via {entry.route} ended {entry.status.tag}"

def stored (entry : TraceEntry) : Value :=
  .object [("timestamp", .ofNat entry.timestamp), ("mogram_id", .string entry.unit.text),
    ("name", .string entry.name), ("kind", .string entry.kind.tag), ("route", .string entry.route),
    ("signature", .ofOption .string entry.signature), ("status", .string entry.status.tag),
    ("metadata", .object (entry.metadata.toList.map fun (key, text) => (key, .string text)))]

def reader : Reader TraceEntry := fun allowance document => do
  let fields ← Fields.read
    ["timestamp", "mogram_id", "name", "kind", "route", "signature", "status", "metadata"]
    allowance document
  return {
    timestamp := ← fields.required "timestamp" .nat
    unit := ← fields.required "mogram_id" Uuid.reader
    name := ← fields.required "name" .string
    kind := ← fields.required "kind" Kind.reader
    route := ← fields.required "route" .string
    signature := ← fields.optional "signature" .string
    status := ← fields.required "status" State.reader
    metadata := ← fields.required "metadata" (.map .string) }

end TraceEntry

structure Collector where
  entries : List TraceEntry
  flushes : Nat

namespace Collector

def empty : Collector := ⟨[], 0⟩

def record (collector : Collector) (entry : TraceEntry) : Collector :=
  { collector with entries := collector.entries ++ [entry] }

def flush (collector : Collector) : Collector :=
  { collector with flushes := collector.flushes + 1 }

/-- Forgets the reports, but not the number of flushes. -/
def clear (collector : Collector) : Collector :=
  { collector with entries := [] }

def entriesFor (collector : Collector) (unit : Uuid) : List TraceEntry :=
  collector.entries.filter (·.unit = unit)

end Collector
end ServiceShell
