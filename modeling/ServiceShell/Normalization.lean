import ServiceShell.Work.Basic
/-!
Reconciles the process signature of a unit with its access: work to be pulled goes to the queueing
dispatcher, and pushed work that targets it goes to the direct dispatcher instead.
-/
namespace ServiceShell

namespace Signature

/-- The dispatcher that a signature belongs to under an access; `queueName` is the queue that is
used where the signature names no provider. -/
def forAccess (signature : Signature) (queueName : String) : Access → Signature
  | .pull =>
    if signature.type = queueingDispatcher then signature
    else match signature.provider with
      | .named name => signature.retarget queueingDispatcher (.named name)
      | .any => signature.retarget queueingDispatcher (.named queueName)
  | .push =>
    if signature.type = queueingDispatcher then signature.retarget directDispatcher .any
    else signature

end Signature

namespace Work

/-- The process signature to be corrected; a unit without one asks for the direct dispatcher. -/
def requestedSignature (work : Work) : Signature :=
  work.core.processSignature.getD (.net Signature.dispatchSelector Signature.directDispatcher)

def effectiveAccess (work : Work) : Access :=
  work.requestedSignature.access.getD work.core.control.access

/-- A job whose signature declares an access is left alone. -/
def keepsSignature (work : Work) : Bool :=
  work.isJob && work.requestedSignature.access.isSome

def correctedSignature (work : Work) (queueName : String) : Signature :=
  if work.keepsSignature then work.requestedSignature
  else work.requestedSignature.forAccess queueName work.effectiveAccess

def correct (work : Work) (queueName : String) : Work :=
  if work.keepsSignature then work
  else work.mapCore fun core =>
    let core := core.mapControl ({ · with access := work.effectiveAccess })
    core.setProcessSignature (work.correctedSignature queueName)

end Work
end ServiceShell
