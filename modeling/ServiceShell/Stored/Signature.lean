import ServiceShell.Fidelity
import ServiceShell.Json.Record
/-!
The stored form of signatures and fidelities. In-process operations are not stored.
-/
namespace ServiceShell

open Json (Value Reader Fields)

def ProviderName.stored : ProviderName → Value
  | any => .string "Any"
  | named name => .object [("Named", .string name)]

def ProviderName.reader : Reader ProviderName
  | allowance, .object [(some "Named", document)] => do
    named <$> Reader.string (← Json.Document.enter? allowance) document
  | allowance, document => Reader.named [("Any", any)] allowance document

def Access.tag : Access → String
  | push => "Push"
  | pull => "Pull"

def Access.reader : Reader Access := .named ([push, pull].map fun access => (access.tag, access))

def Role.tag : Role → String
  | process => "Process"
  | prepare => "Prepare"
  | postprocess => "Postprocess"

def Role.reader : Reader Role :=
  .named ([process, prepare, postprocess].map fun role => (role.tag, role))

namespace Signature

def stored (signature : Signature) : Value :=
  .object [("service_type", .string signature.type), ("selector", .string signature.selector),
    ("provider_name", signature.provider.stored),
    ("access", .ofOption (fun access => .string access.tag) signature.access),
    ("role", .string signature.role.tag)]

def reader : Reader Signature := fun allowance document => do
  let fields ← Fields.read ["service_type", "selector", "provider_name", "access", "role"]
    allowance document
  return {
    service := {
      type := ← fields.required "service_type" .string
      selector := ← fields.required "selector" .string
      provider := ← fields.defaulted "provider_name" .any ProviderName.reader }
    access := ← fields.defaulted "access" none Access.reader.nullable
    role := ← fields.defaulted "role" .process Role.reader
    target := none }

end Signature

namespace Fidelity

def stored (fidelity : Fidelity) : Value :=
  .object [("name", .string fidelity.name),
    ("selects", .array (fidelity.selects.map Signature.stored))]

def reader : Reader Fidelity := fun allowance document => do
  let fields ← Fields.read ["name", "selects"] allowance document
  return ⟨← fields.required "name" .string, ← fields.required "selects" (.list Signature.reader)⟩

end Fidelity

namespace Fidelities

def stored (fidelities : Fidelities) : Value :=
  .object [("fidelities", .array (fidelities.alternatives.map Fidelity.stored)),
    ("selected", .ofOption .ofNat fidelities.selected)]

def reader : Reader Fidelities := fun allowance document => do
  let fields ← Fields.read ["fidelities", "selected"] allowance document
  return ⟨← fields.required "fidelities" (.list Fidelity.reader), ← fields.optional "selected" .nat⟩

end Fidelities
end ServiceShell
