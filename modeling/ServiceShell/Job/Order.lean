import ServiceShell.Job.Validation
/-!
The order in which the children of a job run: producers before their consumers, and among the
children that could come next the one declared first.
-/
namespace ServiceShell.Job

structure Edge where
  consumer : Nat
  producer : Nat
deriving DecidableEq

/-- How far the ordering has come: the children placed so far, for each child the number of its
edges from children not yet placed, and the children that wait for nobody, in declared order. -/
structure Progress where
  placed : List Nat
  waiting : List Nat
  ready : List Nat
deriving DecidableEq

namespace Progress

def insertReady (child : Nat) : List Nat → List Nat
  | [] => [child]
  | first :: rest =>
    if child < first then child :: first :: rest else first :: insertReady child rest

def release (progress : Progress) (child : Nat) : Progress :=
  let left := progress.waiting.getD child 0 - 1
  { progress with
    waiting := progress.waiting.set child left
    ready := if left = 0 then insertReady child progress.ready else progress.ready }

def step (edges : List Edge) (progress : Progress) : Progress :=
  match progress.ready with
  | [] => progress
  | child :: rest =>
    let consumers := (edges.filter (·.producer = child)).map Edge.consumer
    consumers.foldl release { progress with placed := progress.placed ++ [child], ready := rest }

def start (count : Nat) (edges : List Edge) : Progress :=
  let waiting := (List.range count).map fun child => edges.countP (·.consumer = child)
  ⟨[], waiting, (List.range count).filter fun child => waiting.getD child 0 = 0⟩

def steps (edges : List Edge) : Nat → Progress → Progress
  | 0, progress => progress
  | n + 1, progress => steps edges n (step edges progress)

def run (count : Nat) (edges : List Edge) : Progress :=
  steps edges count (start count edges)

end Progress

inductive OrderError where
  | invalid (issues : List Issue)
  | cyclic (children : List String)

def OrderError.toDispatchError (job : String) : OrderError → DispatchError
  | invalid issues =>
    .configuration (" ".intercalate ((issues.filter Issue.isError).map (Issue.message job)))
  | cyclic children =>
    .configuration (s!"cyclic dependency in job '{job}' among: " ++ ", ".intercalate children)

def edges (names : List String) (dependencies : List Dependency) : List Edge :=
  dependencies.filterMap fun d => do
    return ⟨← names.idxOf? d.consumer, ← names.idxOf? d.producer⟩

def order (children : List Work) (dependencies : List Dependency) : Except OrderError (List Nat) :=
  let found := issues children dependencies
  if !isSafe found then .error (.invalid found)
  else if dependencies.isEmpty then .ok (List.range children.length)
  else
    let names := children.map Work.name
    let progress := Progress.run children.length (edges names dependencies)
    if progress.placed.length = children.length then .ok progress.placed
    else
      let stuck := (List.range children.length).filter fun child =>
        progress.waiting.getD child 0 > 0
      .error (.cyclic (stuck.filterMap (names[·]?)))

def arrange {α : Type} (items : List α) (positions : List Nat) : List α :=
  positions.filterMap (items[·]?)

end ServiceShell.Job
