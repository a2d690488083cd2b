import ServiceShell.Context.Lookup
import ServiceShell.Fault
import ServiceShell.Text.Blank
/-!
Signatures: which type of service a unit of work needs, which operation of it and from which
provider. A signature with an operation of its own is carried out in this process.
-/
namespace ServiceShell

/-- In-process service code: from a selector and a context to the context it leaves, and the fault
it stopped with. -/
abbrev Operation := String → Context → Context × Option Fault

inductive ProviderName where
  | any
  | named (name : String)
deriving DecidableEq

namespace ProviderName

def text : ProviderName → String
  | any => "*"
  | named name => name

def isNamed : ProviderName → Bool
  | any => false
  | named _ => true

end ProviderName

/-- Whether a unit goes straight to a provider, or into the queue of a dispatcher. -/
inductive Access where
  | push
  | pull
deriving DecidableEq

inductive Role where
  | process
  | prepare
  | postprocess
deriving DecidableEq

structure Service where
  type : String
  selector : String
  provider : ProviderName
deriving DecidableEq

structure Signature where
  service : Service
  access : Option Access
  role : Role
  target : Option Operation

namespace Signature

def directDispatcher : String := "Jobber"

def queueingDispatcher : String := "Spacer"

def dispatchSelector : String := "exert"

def net (selector type : String) : Signature := ⟨⟨type, selector, .any⟩, none, .process, none⟩

def object (selector type : String) (operation : Operation) : Signature :=
  { net selector type with target := some operation }

def type (signature : Signature) : String := signature.service.type

def selector (signature : Signature) : String := signature.service.selector

def provider (signature : Signature) : ProviderName := signature.service.provider

def withProvider (signature : Signature) (provider : ProviderName) : Signature :=
  { signature with service := { signature.service with provider } }

def withRole (signature : Signature) (role : Role) : Signature :=
  { signature with role }

def isLocal (signature : Signature) : Bool := signature.target.isSome

def isTransportable (signature : Signature) : Bool := signature.target.isNone

def isSelectable (signature : Signature) : Bool := !Text.isBlank signature.selector

def isProcess (signature : Signature) : Bool := signature.role = .process

def text (signature : Signature) : String :=
  s!"{signature.type}#{signature.selector}@{signature.provider.text}" ++
    (if signature.isLocal then " (object)" else "")

def retarget (signature : Signature) (type : String) (provider : ProviderName) : Signature :=
  { signature with service := ⟨type, dispatchSelector, provider⟩, role := .process }

end Signature
end ServiceShell
