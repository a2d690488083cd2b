import ServiceShell.Job.Order
import ServiceShell.Provider
/-!
What a shell writes to its log, by cause; level and text of each are given in one place.
-/
namespace ServiceShell

inductive Level where
  | trace
  | debug
  | info
  | warn
  | error
deriving DecidableEq

def Level.text : Level → String
  | trace => "trace"
  | debug => "debug"
  | info => "info"
  | warn => "warn"
  | error => "error"

inductive Note where
  | dispatching (kind : Kind) (unit : String)
  | refused (error : DispatchError)
  | dispatchFailed (unit : String) (error : DispatchError)
  | returnedWithError (unit : String) (error : DispatchError)
  | evaluatesToTrace (unit : String) (error : DispatchError)
  | dependerFailed (depender unit : String) (fault : Fault)
  | validJob
  | invalidJob (job : String) (issue : Job.Issue)
  | modelFailed (unit : String) (fault : Fault)
  | taskModelFailed (unit : String) (fault : Fault)
  | taskFailed (unit : String) (fault : Fault)
  | stepFailed (step task : String)
  | childAborted (child : String) (kind : Kind) (unit : String) (error : DispatchError)
  | jobFailed (job : String) (children : List String)
  | blockStopped (block child : String)
  | signatureBefore (signature : Signature)
  | signatureAfter (signature : Signature)
  | unselectable (signature : Signature)
  | providerFault (unit : String) (fault : Fault)
  | callFailed (error : DispatchError)
  | callDenied (error : DispatchError)
  | lockFailed (key : String) (error : RemoteError)
  | commitFailed (txn : Transaction) (key : String) (error : RemoteError)
  | abortFailed (txn : Transaction) (error : RemoteError)
  | cachedProviderDead (provider : Provider) (signature : Signature) (error : RemoteError)
  | locateFailed (provider : String) (error : RemoteError)
  | discoveryFailed (signature : Signature) (error : RemoteError)
  | providerDead (provider : Provider) (signature : Signature) (error : RemoteError)
  | noProvider (signature : Signature)
  | nothingToPersist (source unit : String)

namespace Note

def line : Note → Level × String
  | dispatching kind unit => (.debug, s!"Dispatching {kind.text} '{unit}'")
  | refused error => (.error, error.message)
  | dispatchFailed unit error => (.error, s!"Dispatch of '{unit}' failed: {error.message}")
  | returnedWithError unit error =>
    (.debug, s!"'{unit}' returned with a dispatch error: {error.message}")
  | evaluatesToTrace unit error => (.debug, s!"'{unit}' evaluates to its trace: {error.message}")
  | dependerFailed depender unit fault =>
    (.error, s!"Depender '{depender}' of '{unit}' failed: {fault.message}")
  | validJob => (.debug, "Job validation passed")
  | invalidJob job issue =>
    if issue.isError then (.error, s!"Validation error: {issue.message job}")
    else (.warn, s!"Validation warning: {issue.message job}")
  | modelFailed unit fault => (.error, s!"Model '{unit}' failed: {fault.message}")
  | taskModelFailed unit fault => (.error, s!"Model of task '{unit}' failed: {fault.message}")
  | taskFailed unit fault => (.error, s!"Task '{unit}' failed: {fault.message}")
  | stepFailed step task => (.warn, s!"Step '{step}' of task '{task}' failed")
  | childAborted child kind unit error =>
    (.warn, s!"Child '{child}' of {kind.text} '{unit}' aborted: {error.message}")
  | jobFailed job children =>
    (.warn, s!"Job '{job}' failed in: " ++ ", ".intercalate children)
  | blockStopped block child => (.warn, s!"Block '{block}' stopped at '{child}'")
  | signatureBefore signature => (.info, s!"signature (before) = {signature.text}")
  | signatureAfter signature => (.info, s!"signature (after)  = {signature.text}")
  | unselectable signature => (.warn, s!"Not selectable exertion operation: {signature.text}")
  | providerFault unit fault => (.error, s!"Got exception running: {unit}: {fault.message}")
  | callFailed error => (.error, error.message)
  | callDenied error => (.warn, error.message)
  | lockFailed key error => (.warn, s!"Lock acquisition for '{key}' failed: {error.message}")
  | commitFailed txn key error => (.error, s!"Commit of {txn} for '{key}' failed: {error.message}")
  | abortFailed txn error => (.error, s!"Failed to abort {txn}: {error.message}")
  | cachedProviderDead provider signature error =>
    (.warn, s!"Cached provider '{provider.name}' for {signature.text} failed its liveness check " ++
      s!"({error.message}), reloading")
  | locateFailed provider error =>
    (.debug, s!"Locating provider '{provider}' by name failed: {error.message}")
  | discoveryFailed signature error =>
    (.error, s!"Discovery failed for {signature.text}: {error.message}")
  | providerDead provider signature error =>
    (.error, s!"Provider '{provider.name}' found for {signature.text} is not alive: " ++
      error.message)
  | noProvider signature => (.error, s!"No provider available for {signature.text}")
  | nothingToPersist source unit => (.debug, s!"Nothing to persist at '{source}' in '{unit}'")

end Note

def Job.summary (job : String) (issues : List Job.Issue) : List Note :=
  if issues.isEmpty then [.validJob] else issues.map (.invalidJob job)

end ServiceShell
