import ServiceShell.Provider
/-!
A bounded cache of providers whose loads expire. An expired load is dropped when it is asked for or
when another one is put in; a full cache makes room by dropping the oldest load.
-/
namespace ServiceShell

structure Load where
  service : Service
  provider : Provider
  loadedAt : Nat
deriving DecidableEq

def Load.isFresh (now ttl : Nat) (load : Load) : Bool := now - load.loadedAt < ttl

/-- At most one load per service; times are in milliseconds. -/
structure Cache where
  capacity : Nat
  ttl : Nat
  loads : List Load
deriving DecidableEq

namespace Cache

def empty (capacity ttl : Nat) : Cache := ⟨capacity, ttl, []⟩

def find? (cache : Cache) (service : Service) : Option Load :=
  cache.loads.find? (·.service = service)

def remove (cache : Cache) (service : Service) : Cache :=
  { cache with loads := cache.loads.filter (·.service ≠ service) }

def get (cache : Cache) (now : Nat) (service : Service) : Option Provider × Cache :=
  match cache.find? service with
  | some load =>
    if load.isFresh now cache.ttl then (some load.provider, cache) else (none, cache.remove service)
  | none => (none, cache)

/-- The oldest load, the first one of several that are equally old. -/
def oldest? : List Load → Option Load
  | [] => none
  | load :: rest =>
    match oldest? rest with
    | some other => if load.loadedAt ≤ other.loadedAt then some load else some other
    | none => some load

def purge (cache : Cache) (now : Nat) : Cache :=
  { cache with loads := cache.loads.filter (·.isFresh now cache.ttl) }

def makeRoom (cache : Cache) (service : Service) : Cache :=
  if (cache.find? service).isNone ∧ cache.capacity ≤ cache.loads.length then
    match oldest? cache.loads with
    | some load => cache.remove load.service
    | none => cache
  else cache

def insert (cache : Cache) (now : Nat) (service : Service) (provider : Provider) : Cache :=
  if cache.capacity = 0 then cache
  else
    let cache := ((cache.purge now).makeRoom service).remove service
    { cache with loads := cache.loads ++ [⟨service, provider, now⟩] }

def invalidate (cache : Cache) (service : Service) : Bool × Cache :=
  ((cache.find? service).isSome, cache.remove service)

def clear (cache : Cache) : Cache := { cache with loads := [] }

def size (cache : Cache) : Nat := cache.loads.length

end Cache
end ServiceShell
