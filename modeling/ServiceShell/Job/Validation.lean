import ServiceShell.Work.Basic
/-!
Validation of a job: its children have distinct names, and its dependencies join two of them.
-/
namespace ServiceShell.Job

inductive Issue where
  | repeatedChild (child : String)
  | unselectableChild (child signature : String)
  | selfDependency (child : String)
  | repeatedDependency (dependency : Dependency)
  | unknownChild (dependency : Dependency) (child : String)
deriving DecidableEq

namespace Issue

/-- A job with an error cannot be ordered; a warning does not stop it. -/
def isError : Issue → Bool
  | unselectableChild .. | repeatedDependency _ => false
  | _ => true

def message (job : String) : Issue → String
  | repeatedChild child => s!"Job '{job}' has more than one child named '{child}'."
  | unselectableChild child signature =>
    s!"Child '{child}' of job '{job}' has a signature without an operation: {signature}"
  | selfDependency child => s!"Child '{child}' of job '{job}' depends on itself."
  | repeatedDependency d =>
    s!"Dependency '{d.producer}' -> '{d.consumer}' of job '{job}' is declared twice."
  | unknownChild d child =>
    s!"Dependency '{d.producer}' -> '{d.consumer}' of job '{job}' names unknown child '{child}'."

end Issue

def childIssues (earlier : List String) : List Work → List Issue
  | [] => []
  | child :: rest =>
    let repeated := if child.name ∈ earlier then [.repeatedChild child.name] else []
    let unselectable := match child.core.processSignature with
      | some signature =>
        if !signature.isLocal && !signature.isSelectable then
          [.unselectableChild child.name signature.text] else []
      | none => []
    repeated ++ unselectable ++ childIssues (child.name :: earlier) rest

def dependencyIssues (names : List String) (earlier : List Dependency) :
    List Dependency → List Issue
  | [] => []
  | d :: rest =>
    (if d.consumer = d.producer then [.selfDependency d.consumer] else []) ++
      (if d ∈ earlier then [.repeatedDependency d] else []) ++
      ([d.consumer, d.producer].filter (· ∉ names)).map (.unknownChild d) ++
      dependencyIssues names (d :: earlier) rest

def issues (children : List Work) (dependencies : List Dependency) : List Issue :=
  childIssues [] children ++ dependencyIssues (children.map Work.name) [] dependencies

def isSafe (issues : List Issue) : Bool :=
  !issues.any Issue.isError

end ServiceShell.Job
