import ServiceShell.Context.Basic
import ServiceShell.Json.Record
/-!
The stored form of contexts. Scope and request path are written only if there are any.
-/
namespace ServiceShell

open Json (Value Reader Fields)

def RequestPath.stored (request : RequestPath) : Value :=
  .object [("out_paths", .ofStrings request.outPaths),
    ("return_path", .ofOption .string request.returnPath)]

def RequestPath.reader : Reader RequestPath := fun allowance document => do
  let fields ← Fields.read ["out_paths", "return_path"] allowance document
  return ⟨← fields.required "out_paths" (.list .string), ← fields.optional "return_path" .string⟩

namespace Context

def stored : Context → Value
  | ⟨name, entries, scope, request, finalized⟩ =>
    .object ([("name", .string name), ("entries", .object entries.toList)] ++
      (match scope with
        | some outer => [("scope", outer.stored)]
        | none => []) ++
      (request.map fun path => ("request_path", path.stored)).toList ++
      [("finalized", .bool finalized)])

def reader : Reader Context
  | 0, _ => none
  | allowance + 1, document => do
    let fields ← Fields.read ["name", "entries", "scope", "request_path", "finalized"]
      (allowance + 1) document
    let inner : Reader Context := fun _ nested => reader allowance nested
    return {
      name := ← fields.required "name" .string
      entries := ← fields.required "entries" (.map .value)
      scope := ← fields.defaulted "scope" none inner.nullable
      request := ← fields.defaulted "request_path" none RequestPath.reader.nullable
      finalized := ← fields.defaulted "finalized" false .bool }

end Context
end ServiceShell
