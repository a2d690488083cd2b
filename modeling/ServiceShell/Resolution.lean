import ServiceShell.Run
/-!
Resolution of a signature: a cached provider that is alive, else a provider located by name, else
one found by its type of service. Only a provider that answered a ping is cached.
-/
namespace ServiceShell

variable {σ : Type}

namespace Collaborators

def readCache (c : Collaborators σ) (signature : Signature) : Run σ (Option Provider) :=
  .useCache c.now fun now cache => cache.get now signature.service

def keep (c : Collaborators σ) (signature : Signature) (provider : Provider) : Run σ Unit :=
  .useCache c.now fun now cache => ((), cache.insert now signature.service provider)

def forget (c : Collaborators σ) (signature : Signature) : Run σ Unit :=
  .useCache c.now fun _ cache => ((), (cache.invalidate signature.service).2)

def pinged (c : Collaborators σ) (provider : Provider) : Run σ (Except RemoteError Unit) :=
  .ask (c.ping provider) (.pinged provider)

def unavailable (signature : Signature) : DispatchError :=
  .providerUnavailable signature.provider.text signature.type

def locateNamed (c : Collaborators σ) (signature : Signature) : Run σ (Option Handle) :=
  match signature.provider with
  | .any => return none
  | .named name => do
    match ← Run.ask (c.locate name signature) (.located name signature) with
    | .ok handle => return handle
    | .error error =>
      Run.note (.locateFailed name error)
      return none

def findByType (c : Collaborators σ) (signature : Signature) : Run σ (Option Handle) := do
  match ← Run.ask (c.find signature) (.found signature) with
  | .ok handle => return handle
  | .error error =>
    Run.note (.discoveryFailed signature error)
    return none

def discover (c : Collaborators σ) (signature : Signature) : Run σ (Option Handle) := do
  match ← c.locateNamed signature with
  | some handle => return some handle
  | none => c.findByType signature

def load (c : Collaborators σ) (signature : Signature) : Run σ (Except DispatchError Handle) := do
  match ← c.discover signature with
  | some (.provider provider) =>
    match ← c.pinged provider with
    | .ok () =>
      c.keep signature provider
      return .ok (.provider provider)
    | .error error =>
      Run.note (.providerDead provider signature error)
      return .error (unavailable signature)
  | some (.standIn operation) => return .ok (.standIn operation)
  | none =>
    Run.note (.noProvider signature)
    return .error (unavailable signature)

/-- A handle for a signature; a provider has answered a ping during this very call. -/
def resolve (c : Collaborators σ) (signature : Signature) :
    Run σ (Except DispatchError Handle) := do
  match ← c.readCache signature with
  | none => c.load signature
  | some provider =>
    match ← c.pinged provider with
    | .ok () => return .ok (.provider provider)
    | .error error =>
      Run.note (.cachedProviderDead provider signature error)
      c.forget signature
      c.load signature

end Collaborators
end ServiceShell
