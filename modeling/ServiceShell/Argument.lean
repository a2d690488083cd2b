import ServiceShell.Context.Lookup
/-!
Arguments passed along with a unit of work. Of arguments that exclude each other the last counts.
-/
namespace ServiceShell

inductive Argument where
  /-- A value put into the context of the unit, and again into blocks that are reset. -/
  | entry (path : String) (value : Json.Value)
  /-- A context merged into blocks that are reset. -/
  | context (incoming : Context)
  | fidelity (name : String)
  | request (path : RequestPath)
  | outputs (paths : List String)

namespace Argument

def entries (args : List Argument) : List (String × Json.Value) :=
  args.filterMap fun
    | .entry path value => some (path, value)
    | _ => none

def incoming? (args : List Argument) : Option Context :=
  args.reverse.findSome? fun
    | .context incoming => if incoming.entries.isEmpty then none else some incoming
    | _ => none

def fidelity? (args : List Argument) : Option String :=
  args.reverse.findSome? fun
    | .fidelity name => some name
    | _ => none

def request? (args : List Argument) : Option RequestPath :=
  args.reverse.findSome? fun
    | .request path => some path
    | _ => none

def outputs? (args : List Argument) : Option (List String) :=
  args.reverse.findSome? fun
    | .outputs paths => some paths
    | _ => none

end Argument
end ServiceShell
