import ServiceShell.Work.Basic
/-!
The collaborators of a shell: providers, the discovery that finds them, a clock, a source of fresh
ids, and the lock and transaction services. Each is a function on the environment they all share.
-/
namespace ServiceShell

structure Provider where
  name : String
  id : Uuid
  exclusive : Bool
deriving DecidableEq

/-- What a signature resolves to: a provider, or in-process code to be used once in its place. -/
inductive Handle where
  | provider (provider : Provider)
  | standIn (operation : Operation)

structure Transaction where
  number : Nat
deriving DecidableEq

instance : ToString Transaction := ⟨fun txn => s!"txn:{txn.number}"⟩

/-- Lock service and transaction manager. A lock is released when its transaction ends. -/
structure Exclusion (σ : Type) where
  create : σ → Except RemoteError Transaction × σ
  /-- Whether the lock of a key is granted to an owner inside a transaction. -/
  acquire : String → Uuid → Transaction → σ → Except RemoteError Bool × σ
  commit : Transaction → σ → Except RemoteError Unit × σ
  abort : Transaction → σ → Except RemoteError Unit × σ

structure Collaborators (σ : Type) where
  now : σ → Nat
  freshId : σ → Uuid × σ
  locate : String → Signature → σ → Except RemoteError (Option Handle) × σ
  find : Signature → σ → Except RemoteError (Option Handle) × σ
  ping : Provider → σ → Except RemoteError Unit × σ
  /-- Sends a unit to a provider, which may return none. -/
  invoke : Provider → Work → Option Transaction → List Argument → σ →
    Except RemoteError (Option Work) × σ
  exclusion : Option (Exclusion σ)

end ServiceShell
