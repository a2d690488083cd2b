import ServiceShell.Argument
import ServiceShell.Control
/-!
Units of work. A task is bound to one signature, a job runs its children in the order of their
dependencies, a block runs them in declared order over one shared context, and a model computes
values from other values.
-/
namespace ServiceShell

/-- After every dispatch of its unit, keeps the value at a path in a slot. -/
structure Persister where
  slot : String
  source : String
deriving DecidableEq

structure Depender where
  name : String
  realize : Context → List Argument → Context × Option Fault

structure Procedure where
  path : String
  compute : Context → Except Fault Json.Value

structure Core where
  id : Uuid
  name : String
  context : Context
  control : Control
  status : State
  exceptions : List Fault
  returnPath : Option String
  persisters : List Persister
  dependers : List Depender

/-- The consumer reads what the producer writes. -/
structure Dependency where
  consumer : String
  producer : String
deriving DecidableEq

/-- A task that runs in place of another one. -/
structure Errand where
  core : Core
  model : Option (List Procedure)

/-- What is particular to a kind of work, over the type of the children. The errands of a task
replace one another: the first runs in place of the task, the second in place of the first, and so
on. A block remembers the context it was declared with. -/
inductive Body (Child : Type) where
  | task (model : Option (List Procedure)) (errands : List Errand)
  | job (dependencies : List Dependency) (children : List Child)
  | block (declared : Context) (children : List Child)
  | model (procedures : List Procedure)

structure Work where
  core : Core
  body : Body Work

inductive Kind where
  | task
  | job
  | block
  | model
deriving DecidableEq

def Kind.text : Kind → String
  | task => "task"
  | job => "job"
  | block => "block"
  | model => "model"

namespace Procedure

def runAll : List Procedure → Context → Context × Option Fault
  | [], context => (context, none)
  | procedure :: rest, context =>
    match procedure.compute context with
    | .ok value => runAll rest (context.put procedure.path value)
    | .error fault => (context, some fault)

end Procedure

namespace Core

def fresh (id : Uuid) (name : String) : Core :=
  ⟨id, name, .named name, .default, .initial, [], none, [], []⟩

def fidelities (core : Core) : Fidelities := core.control.fidelities

def processSignature (core : Core) : Option Signature := core.fidelities.processSignature

def mapControl (core : Core) (change : Control → Control) : Core :=
  { core with control := change core.control }

def mapContext (core : Core) (change : Context → Context) : Core :=
  { core with context := change core.context }

def setProcessSignature (core : Core) (signature : Signature) : Core :=
  core.mapControl (·.mapFidelities (·.setProcessSignature signature))

def setStatus (core : Core) (status : State) : Core :=
  { core with status, control := { core.control with state := status } }

def report (core : Core) (fault : Fault) : Core :=
  { core with exceptions := core.exceptions ++ [fault] }

def fail (core : Core) (fault : Fault) : Core :=
  (core.setStatus (.ofFault fault)).report fault

def finish (core : Core) : Core :=
  core.setStatus (if core.status = .running then .done else core.status)

def hasFailed (core : Core) : Bool := core.status.isFailure

end Core

namespace Work

def kind (work : Work) : Kind :=
  match work.body with
  | .task .. => .task
  | .job .. => .job
  | .block .. => .block
  | .model .. => .model

def name (work : Work) : String := work.core.name

def isJob (work : Work) : Bool := work.kind = .job

def isComposite (work : Work) : Bool :=
  match work.kind with
  | .job | .block => true
  | _ => false

def children (work : Work) : List Work :=
  match work.body with
  | .job _ children | .block _ children => children
  | _ => []

def child? (work : Work) (name : String) : Option Work :=
  work.children.find? fun child => child.name = name

def mapCore (work : Work) (change : Core → Core) : Work :=
  { work with core := change work.core }

def ofSignature (id : Uuid) (name : String) (signature : Signature) : Work :=
  ⟨(Core.fresh id name).mapControl ({ · with fidelities := .ofSignatures [signature] }),
    .task none []⟩

/-- Replaces the context; a block takes it for the one it was declared with. -/
def withContext (work : Work) (context : Context) : Work :=
  let core := { work.core with context }
  match work.body with
  | .block _ children => ⟨core, .block context children⟩
  | body => ⟨core, body⟩

end Work
end ServiceShell
