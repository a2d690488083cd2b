import ServiceShell.Rehearsal.Script
import ServiceShell.Shell
/-!
A rehearsal: shells with the same settings on one stage, the units they work on, and what has
happened so far. Each shell has a cache of its own unless they share one.
-/
namespace ServiceShell.Rehearsal

inductive Sink where
  | none
  | collector
  | log
deriving DecidableEq

structure Session where
  config : Config
  exclusive : Bool
  sink : Sink
  sharedCache : Bool
  stage : Stage
  caches : List Cache
  units : OrderedMap Work
  collector : Collector
  history : List Event

namespace Session

def shell (session : Session) (index : Nat) : Shell Stage :=
  ⟨session.config, Stage.collaborators index session.exclusive⟩

def cacheIndex (session : Session) (shell : Nat) : Nat :=
  if session.sharedCache then 0 else shell

def cache (session : Session) (shell : Nat) : Cache :=
  session.caches.getD (session.cacheIndex shell) (.empty 0 0)

def setCache (session : Session) (shell : Nat) (cache : Cache) : Session :=
  { session with caches := session.caches.set (session.cacheIndex shell) cache }

def keep (session : Session) (name : String) (work : Work) : Session :=
  { session with units := session.units.put name work }

def changeStage (session : Session) (change : Stage → Stage) : Session :=
  { session with stage := change session.stage }

def build (session : Session) (unit : Workshop → Work × Workshop) : Session :=
  let (work, workshop) := unit session.stage.workshop
  (session.changeStage ({ · with workshop })).keep work.name work

def run {α : Type} (session : Session) (shell : Nat) (computation : Run Stage α) :
    α × List Event × Session :=
  let outcome := computation ⟨session.stage, session.cache shell⟩
  let after := session.setCache shell outcome.world.cache
  (outcome.value, outcome.events, { after with
    stage := outcome.world.env
    history := after.history ++ outcome.events
    collector :=
      if after.sink = .collector then after.collector.absorb outcome.events else after.collector })

def slots (session : Session) : List (String × String × Option Json.Value) :=
  (session.stage.workshop.slots.toList.mergeSort fun a b => a.1 ≤ b.1).map fun (slot, source) =>
    (slot, source, Event.slotValue? slot session.history)

end Session
end ServiceShell.Rehearsal
