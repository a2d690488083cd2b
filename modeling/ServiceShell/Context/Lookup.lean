import ServiceShell.Context.Basic
/-!
Lookup of a path. A level of the scope chain answers with the entry at the path, else from inside
the object stored at the longest part of the path in front of a slash that has an answer; the
innermost level with an answer wins.
-/
namespace ServiceShell

open Json (Value Pointer.resolve)

/-- The ways to cut a path at a slash, the longest front part first. -/
def splits : List Char → List (List Char × List Char)
  | [] => []
  | c :: rest =>
    let later := (splits rest).map fun (front, back) => (c :: front, back)
    if c = '/' then later ++ [([], rest)] else later

def nestedValue (entries : OrderedMap Value) (front back : List Char) : Option Value :=
  match entries.get? (String.ofList front) with
  | some (.object members) => Pointer.resolve (.object members) back
  | _ => none

def lookup (entries : OrderedMap Value) (path : String) : Option Value :=
  match entries.get? path with
  | some value => some value
  | none => (splits path.toList).findSome? fun (front, back) => nestedValue entries front back

namespace Context

def levels : Context → List (OrderedMap Value)
  | ⟨_, entries, none, _, _⟩ => [entries]
  | ⟨_, entries, some outer, _, _⟩ => entries :: outer.levels

def get? (context : Context) (path : String) : Option Value :=
  context.levels.findSome? (lookup · path)

def contains (context : Context) (path : String) : Bool :=
  (context.get? path).isSome

/-- A fresh context that holds the answers for `paths`; a path without an answer is skipped. -/
def select (context : Context) (paths : List String) : Context :=
  paths.foldl (fun selected path =>
    match context.get? path with
    | some value => selected.put path value
    | none => selected) (named context.name)

def int (context : Context) (path : String) : Int :=
  ((context.get? path).bind Value.asInt?).getD 0

end Context
end ServiceShell
