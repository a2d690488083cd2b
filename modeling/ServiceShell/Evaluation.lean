import ServiceShell.Work.Tree
/-!
The result of a unit of work as its caller sees it. A failure answers with the logged faults; else
the request path of the context decides, and a result that is stored at a return path is read back
by later calls.
-/
namespace ServiceShell

open Json (Value)

inductive Evaluation where
  | value (value : Value)
  | context (context : Context)
  | trace (faults : List Fault)

def Evaluation.toValue? : Evaluation → Option Value
  | value v => some v
  | context c => some c.toValue
  | trace _ => none

namespace Context

def storedResult? (context : Context) (request : RequestPath) : Option Evaluation := do
  let stored ← context.get? (← request.returnPath)
  if request.outPaths.length > 1 then
    match ofValue? context.name stored with
    | some nested => return .context nested
    | none => return .value stored
  else return .value stored

def finalizeAt (context : Context) (path : String) (value : Value) : Context :=
  { context.put path value with finalized := true }

/-- The result where none is requested: the natural one, the outputs among the arguments, or all. -/
def unrequested (context : Context) (natural : Option Value) (args : List Argument) : Evaluation :=
  match natural with
  | some value => .value value
  | none =>
    match Argument.outputs? args with
    | some paths => .context (context.select paths)
    | none => .context context

/-- Several outputs, or those of a composite: what is stored at the return path if there is
something, else the selected outputs, which are stored there. -/
def requestedOutputs (context : Context) (outs : List String) : Option String → Evaluation × Context
  | none => (.context (context.select outs), context)
  | some path =>
    match context.get? path with
    | some (.object members) =>
      let nested := { named context.name with entries := .ofList members }
      match nested.get? path with
      | some inner => (.value inner, context)
      | none => (.context nested, context)
    | some .null | none =>
      let selected := context.select outs
      (.context selected, context.finalizeAt path selected.toValue)
    | some value => (.value value, context)

def requested (context : Context) (composite : Bool) (natural : Option Value) (args : List Argument)
    (request : RequestPath) : Evaluation × Context :=
  match request.outPaths, request.returnPath with
  | [], some path =>
    match context.get? path with
    | some value => (.value value, context)
    | none => (context.unrequested natural args, context)
  | [], none => (context.unrequested natural args, context)
  | [out], some path =>
    let value := (context.get? out).getD .null
    (.value value, context.finalizeAt path value)
  | [out], none =>
    if composite then context.requestedOutputs [out] none
    else (.value ((context.get? out).getD .null), context)
  | outs, path => context.requestedOutputs outs path

def evaluate (context : Context) (composite : Bool) (natural : Option Value)
    (args : List Argument) : Evaluation × Context :=
  let request := context.request.getD .empty
  match if context.finalized then context.storedResult? request else none with
  | some stored => (stored, context)
  | none => context.requested composite natural args request

end Context

namespace Work

def finalize (work : Work) (args : List Argument) : Evaluation × Work :=
  if !work.core.exceptions.isEmpty then (.trace work.core.exceptions, work)
  else if work.core.hasFailed then (.trace (work.units.flatMap (·.core.exceptions)), work)
  else
    let work := match Argument.request? args with
      | some path => work.mapCore (·.mapContext ({ · with request := some path }))
      | none => work
    let (result, context) := work.core.context.evaluate work.isComposite work.result? args
    (result, work.mapCore (·.mapContext fun _ => context))

end Work
end ServiceShell
