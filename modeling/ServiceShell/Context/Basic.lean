import ServiceShell.Json.Pointer
/-!
Contexts: the data of a unit of work, as values at hierarchical paths. A context may have an
enclosing scope, which is consulted for paths it does not know itself.
-/
namespace ServiceShell

open Json (Value)

structure RequestPath where
  outPaths : List String
  returnPath : Option String
deriving DecidableEq

def RequestPath.empty : RequestPath := ⟨[], none⟩

structure Context where
  name : String
  entries : OrderedMap Value
  scope : Option Context
  request : Option RequestPath
  finalized : Bool

namespace Context

def named (name : String) : Context := ⟨name, .empty, none, none, false⟩

instance : Inhabited Context := ⟨named ""⟩

def put (context : Context) (path : String) (value : Value) : Context :=
  { context with entries := context.entries.put path value }

def remove (context : Context) (path : String) : Context :=
  { context with entries := context.entries.erase path }

/-- Copies the own entries of `other` over those of `context`; the scope of `other` stays behind. -/
def overlay (context other : Context) : Context :=
  { context with entries := context.entries.overlay other.entries }

def withScope (context : Context) (scope : Context) : Context :=
  { context with scope := some scope }

def clearScope (context : Context) : Context :=
  { context with scope := none }

def toValue (context : Context) : Value :=
  .object context.entries.toList

def ofValue? (name : String) : Value → Option Context
  | .object members => some { named name with entries := .ofList members }
  | _ => none

def under (context : Context) (top : String) : Context :=
  let below := (top ++ "/").toList
  let kept := fun (path : String) => path = top || below.isPrefixOf path.toList
  { named top with entries := .ofList (context.entries.toList.filter fun pair => kept pair.1) }

def agrees (a b : Context) : Bool :=
  let outer := match a, b with
    | ⟨_, _, none, _, _⟩, ⟨_, _, none, _, _⟩ => true
    | ⟨_, _, some x, _, _⟩, ⟨_, _, some y, _, _⟩ => x.agrees y
    | _, _ => false
  a.name == b.name && a.toValue.agrees b.toValue && outer && a.request == b.request &&
    a.finalized == b.finalized

end Context
end ServiceShell
