import ServiceShell.Fault
import ServiceShell.Json.Record
/-!
Settings of a shell. Every one has a default, so that a document may give only some of them.
-/
namespace ServiceShell

open Json (Value Reader Fields)

structure Config where
  /-- The queue for pulled work whose signature names no provider. -/
  queueName : String
  cacheCapacity : Nat
  cacheTtlSecs : Nat
  maxDelegationDepth : Nat
deriving DecidableEq

namespace Config

def default : Config := ⟨"Spacer", 20, 30 * 60, 16⟩

def cacheTtl (config : Config) : Nat := config.cacheTtlSecs * 1000

/-- Only whole seconds are kept. -/
def withCacheTtl (config : Config) (milliseconds : Nat) : Config :=
  { config with cacheTtlSecs := milliseconds / 1000 }

def stored (config : Config) : Value :=
  .object [("spacer_name", .string config.queueName),
    ("cache_capacity", .ofNat config.cacheCapacity),
    ("cache_ttl_secs", .ofNat config.cacheTtlSecs),
    ("max_delegation_depth", .ofNat config.maxDelegationDepth)]

def reader : Reader Config := fun allowance document => do
  let fields ← Fields.read
    ["spacer_name", "cache_capacity", "cache_ttl_secs", "max_delegation_depth"] allowance document
  return {
    queueName := ← fields.defaulted "spacer_name" default.queueName .string
    cacheCapacity := ← fields.defaulted "cache_capacity" default.cacheCapacity .nat
    cacheTtlSecs := ← fields.defaulted "cache_ttl_secs" default.cacheTtlSecs .nat
    maxDelegationDepth :=
      ← fields.defaulted "max_delegation_depth" default.maxDelegationDepth .nat }

def refusal : String := "invalid shell config:"

def ofText (text : String) : Except DispatchError Config :=
  match reader.ofText text with
  | some config => .ok config
  | none => .error (.configuration refusal)

end Config
end ServiceShell
