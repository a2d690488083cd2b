import ServiceShell.Rehearsal.Edit
import ServiceShell.Rehearsal.Instruction
import ServiceShell.Provider
/-!
Scripted collaborators: providers, discovery and lock services whose answers are given beforehand,
over a clock that moves only with discovery.
-/
namespace ServiceShell.Rehearsal

/-- Answers to be given one after the other; the last one repeats. -/
structure Script (α : Type) where
  answers : List α
  used : Nat

namespace Script
variable {α : Type}

def ofList (answers : List α) : Script α := ⟨answers, 0⟩

def next (script : Script α) : Option α × Script α :=
  let position := min script.used (script.answers.length - 1)
  (script.answers[position]?, { script with used := script.used + 1 })

end Script

/-- What the units of a rehearsal share: the supply of ids, the names of the units that were built,
and the slots of their persisters with the paths they are filled from. -/
structure Workshop where
  nextId : Nat
  built : List (Uuid × String)
  slots : OrderedMap String

namespace Workshop

def empty : Workshop := ⟨1, [], .empty⟩

def freshId (shop : Workshop) : Uuid × Workshop :=
  (.ofNat shop.nextId, { shop with nextId := shop.nextId + 1 })

def newCore (shop : Workshop) (name : String) : Core × Workshop :=
  let (id, shop) := shop.freshId
  (.fresh id name, { shop with built := (id, name) :: shop.built })

def persister (shop : Workshop) (slot source : String) : Persister × Workshop :=
  match shop.slots.get? slot with
  | some known => (⟨slot, known⟩, shop)
  | none => (⟨slot, source⟩, { shop with slots := shop.slots.put slot source })

def builtName? (shop : Workshop) (id : Uuid) : Option String :=
  (shop.built.find? (·.1 = id)).map Prod.snd

end Workshop

inductive Reply where
  | raise (error : RemoteError)
  | none
  | build (unit : Workshop → Work × Workshop)
  | act (steps : List Instruction) (edits : List Edit)

structure ScriptedProvider where
  provider : Provider
  alive : Bool
  pings : Script (Option Bool)
  calls : Script Reply

inductive Entry where
  | provider (name : String)
  | standIn (steps : List Instruction)
  | raise (error : RemoteError)

inductive LockReply where
  | grant
  | deny
  | raise (error : RemoteError)

structure ScriptedExclusion where
  locks : Script LockReply
  create : Script (Option RemoteError)
  commit : Script (Option RemoteError)
  abort : Script (Option RemoteError)

structure Stage where
  clock : Nat
  workshop : Workshop
  providers : OrderedMap ScriptedProvider
  types : OrderedMap Entry
  names : OrderedMap Entry
  findOnly : Bool
  transactions : Nat
  exclusions : List ScriptedExclusion

namespace Stage

def changeProvider (stage : Stage) (name : String) (change : ScriptedProvider → ScriptedProvider) :
    Stage :=
  match stage.providers.get? name with
  | some scripted => { stage with providers := stage.providers.put name (change scripted) }
  | none => stage

def changeExclusion (stage : Stage) (shell : Nat) (change : ScriptedExclusion → ScriptedExclusion) :
    Stage :=
  { stage with exclusions := stage.exclusions.modify shell change }

def answer (stage : Stage) : Option Entry → Except RemoteError (Option Handle)
  | none => .ok none
  | some (.provider name) =>
    .ok ((stage.providers.get? name).map fun scripted => .provider scripted.provider)
  | some (.standIn steps) => .ok (some (.standIn (Instruction.operation steps)))
  | some (.raise error) => .error error

def tick (stage : Stage) : Stage := { stage with clock := stage.clock + 1 }

def locate (name : String) (_ : Signature) (stage : Stage) :
    Except RemoteError (Option Handle) × Stage :=
  if stage.findOnly then (.ok none, stage) else (stage.answer (stage.names.get? name), stage.tick)

def find (signature : Signature) (stage : Stage) : Except RemoteError (Option Handle) × Stage :=
  (stage.answer (stage.types.get? signature.type), stage.tick)

def ping (provider : Provider) (stage : Stage) : Except RemoteError Unit × Stage :=
  match stage.providers.get? provider.name with
  | none => (.error (.unreachable provider.name), stage)
  | some scripted =>
    let (scheduled, pings) := scripted.pings.next
    let up := (scheduled.join).getD scripted.alive
    let stage := stage.changeProvider provider.name ({ · with pings })
    (if up then .ok () else .error (.unreachable provider.name), stage)

def perform (steps : List Instruction) (edits : List Edit) (work : Work) (arguments : Nat) : Work :=
  let selector := match work.core.processSignature with
    | some signature => signature.selector
    | none => ""
  let (context, fault) := Instruction.runAll selector arguments steps work.core.context
  let work := work.mapCore fun core =>
    let core := { core with context }
    match fault with
    | some fault => core.report fault
    | none => core
  edits.foldl (fun work edit => edit.apply work) work

def invoke (provider : Provider) (work : Work) (_ : Option Transaction) (args : List Argument)
    (stage : Stage) : Except RemoteError (Option Work) × Stage :=
  match stage.providers.get? provider.name with
  | none => (.ok (some work), stage)
  | some scripted =>
    let (reply, calls) := scripted.calls.next
    let stage := stage.changeProvider provider.name ({ · with calls })
    match reply.getD (.act [] []) with
    | .raise error => (.error error, stage)
    | .none => (.ok none, stage)
    | .build unit =>
      let (work, workshop) := unit stage.workshop
      (.ok (some work), { stage with workshop })
    | .act steps edits => (.ok (some (perform steps edits work args.length)), stage)

def freshId (stage : Stage) : Uuid × Stage :=
  let (id, workshop) := stage.workshop.freshId
  (id, { stage with workshop })

def scripts (stage : Stage) (shell : Nat) : ScriptedExclusion :=
  stage.exclusions.getD shell ⟨.ofList [], .ofList [], .ofList [], .ofList []⟩

def outcome : Option (Option RemoteError) → Except RemoteError Unit
  | some (some error) => .error error
  | _ => .ok ()

def create (shell : Nat) (stage : Stage) : Except RemoteError Transaction × Stage :=
  let (error, create) := (stage.scripts shell).create.next
  let stage := stage.changeExclusion shell ({ · with create })
  match outcome error with
  | .error error => (.error error, stage)
  | .ok () =>
    let number := stage.transactions + 1
    (.ok ⟨number⟩, { stage with transactions := number })

def acquire (shell : Nat) (stage : Stage) : Except RemoteError Bool × Stage :=
  let (reply, locks) := (stage.scripts shell).locks.next
  let stage := stage.changeExclusion shell ({ · with locks })
  match reply.getD .grant with
  | .grant => (.ok true, stage)
  | .deny => (.ok false, stage)
  | .raise error => (.error error, stage)

def commit (shell : Nat) (stage : Stage) : Except RemoteError Unit × Stage :=
  let (error, commit) := (stage.scripts shell).commit.next
  (outcome error, stage.changeExclusion shell ({ · with commit }))

def abort (shell : Nat) (stage : Stage) : Except RemoteError Unit × Stage :=
  let (error, abort) := (stage.scripts shell).abort.next
  (outcome error, stage.changeExclusion shell ({ · with abort }))

def collaborators (shell : Nat) (exclusive : Bool) : Collaborators Stage where
  now := Stage.clock
  freshId := Stage.freshId
  locate := Stage.locate
  find := Stage.find
  ping := Stage.ping
  invoke := Stage.invoke
  exclusion := if exclusive then some {
      create := Stage.create shell
      acquire := fun _ _ _ => Stage.acquire shell
      commit := fun _ => Stage.commit shell
      abort := fun _ => Stage.abort shell }
    else none

end Stage
end ServiceShell.Rehearsal
