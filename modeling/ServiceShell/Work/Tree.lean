import ServiceShell.Work.Basic
/-!
Walks over a unit of work and its descendants, children before parents.
-/
namespace ServiceShell.Work

mutual
/-- All units of the tree, children before parents, the unit itself last. -/
def units : Work → List Work
  | ⟨core, body⟩ => bodyUnits body ++ [⟨core, body⟩]

def bodyUnits : Body Work → List Work
  | .job _ children | .block _ children => childUnits children
  | _ => []

def childUnits : List Work → List Work
  | [] => []
  | child :: rest => units child ++ childUnits rest
end

mutual
def mapUnits (change : Work → Core) : Work → Work
  | ⟨core, body⟩ => ⟨change ⟨core, body⟩, mapBody change body⟩

def mapBody (change : Work → Core) : Body Work → Body Work
  | .job dependencies children => .job dependencies (mapChildren change children)
  | .block declared children => .block declared (mapChildren change children)
  | .task model errands => .task model errands
  | .model procedures => .model procedures

def mapChildren (change : Work → Core) : List Work → List Work
  | [] => []
  | child :: rest => mapUnits change child :: mapChildren change rest
end

mutual
/-- The value at the declared return path; a block without one answers with its last child. -/
def result? : Work → Option Json.Value
  | ⟨core, body⟩ =>
    match core.returnPath with
    | some path => core.context.get? path
    | none => bodyResult? body

def bodyResult? : Body Work → Option Json.Value
  | .block _ children => lastResult? children
  | _ => none

def lastResult? : List Work → Option Json.Value
  | [] => none
  | child :: rest => if rest.isEmpty then result? child else lastResult? rest
end

def strip (work : Work) : Work :=
  work.mapUnits fun unit => unit.core.mapControl (·.mapFidelities .strip)

@[simp] theorem strip_core (work : Work) :
    work.strip.core = work.core.mapControl (·.mapFidelities .strip) := by
  cases work
  simp only [strip, mapUnits]

/-- One unit starts over: exceptions and trace of an initial unit are cleared, a block takes its
declared context again, overlaid by entries and the incoming context, and scopes are dropped. -/
def resetCore (args : List Argument) (unit : Work) : Core :=
  let core := unit.core
  let core := if core.control.state = .initial then
      { core.setStatus .initial with
        exceptions := [], control := { core.control with trace := [] } }
    else core
  core.mapContext fun context =>
    match unit.body with
    | .block declared _ =>
      let context := (context.clearScope).overlay declared
      let context := { context with entries := context.entries.putAll (Argument.entries args) }
      match Argument.incoming? args with
      | some incoming => context.overlay incoming
      | none => context
    | _ => context.clearScope

/-- Resets an initial unit and its descendants; a unit in any other state resumes as it is. -/
def reset (args : List Argument) (work : Work) : Work :=
  if work.core.control.state = .initial then work.mapUnits (resetCore args) else work

def substitute (args : List Argument) (work : Work) : Work :=
  work.mapCore (·.mapContext fun context =>
    { context with entries := context.entries.putAll (Argument.entries args) })

end ServiceShell.Work
