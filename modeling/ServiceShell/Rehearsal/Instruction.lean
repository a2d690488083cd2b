import ServiceShell.Work.Basic
/-!
A small language for operations, dependers and the work of scripted providers: instructions that
read and write a context, in order, up to the first that stops. What was written before stays.
-/
namespace ServiceShell.Rehearsal

open Json (Value)

inductive Instruction where
  | put (path : String) (value : Value)
  | increase (path : String) (by_ : Int)
  | add (target left right : String)
  | multiply (target left right : String)
  | copy (target source : String)
  | has (target path : String)
  | remove (path : String)
  | selector (target : String)
  | argumentCount (target : String)
  | request (path : RequestPath)
  | dropScope
  | stop (fault : Fault)
  | stopIf (path : String) (fault : Fault)
  | stopUnless (path : String) (fault : Fault)

namespace Instruction

def isTrue (context : Context) (path : String) : Bool :=
  match context.get? path with
  | some (.bool true) => true
  | _ => false

def run (selector : String) (arguments : Nat) (context : Context) :
    Instruction → Except Fault Context
  | put path value => .ok (context.put path value)
  | increase path n => .ok (context.put path (.ofInt (context.int path + n)))
  | add target a b => .ok (context.put target (.ofInt (context.int a + context.int b)))
  | multiply target a b => .ok (context.put target (.ofInt (context.int a * context.int b)))
  | copy target source =>
    match context.get? source with
    | some value => .ok (context.put target value)
    | none => .ok context
  | has target path => .ok (context.put target (.bool (context.contains path)))
  | remove path => .ok (context.remove path)
  | .selector target => .ok (context.put target (.string selector))
  | argumentCount target => .ok (context.put target (.ofNat arguments))
  | request path => .ok { context with request := some path }
  | dropScope => .ok context.clearScope
  | stop fault => .error fault
  | stopIf path fault => if isTrue context path then .error fault else .ok context
  | stopUnless path fault => if context.contains path then .ok context else .error fault

def runAll (selector : String) (arguments : Nat) :
    List Instruction → Context → Context × Option Fault
  | [], context => (context, none)
  | instruction :: rest, context =>
    match run selector arguments context instruction with
    | .ok context => runAll selector arguments rest context
    | .error fault => (context, some fault)

def operation (steps : List Instruction) : Operation := fun selector => runAll selector 0 steps

def depender (name : String) (steps : List Instruction) : Depender :=
  ⟨name, fun context args => runAll "" args.length steps context⟩

end Instruction

inductive Formula where
  | const (value : Value)
  | get (path : String)
  | add (left right : String)
  | multiply (left right : String)
  | size
  | need (path : String)
  | stop (fault : Fault)

namespace Formula

def compute (context : Context) : Formula → Except Fault Value
  | const value => .ok value
  | get path => .ok ((context.get? path).getD .null)
  | add a b => .ok (.ofInt (context.int a + context.int b))
  | multiply a b => .ok (.ofInt (context.int a * context.int b))
  | size => .ok (.ofNat context.entries.size)
  | need path =>
    match context.get? path with
    | some value => .ok value
    | none => .error (.exception s!"missing {path}")
  | stop fault => .error fault

def procedure (path : String) (formula : Formula) : Procedure :=
  ⟨path, fun context => formula.compute context⟩

end Formula
end ServiceShell.Rehearsal
