import ServiceShell.Proofs.EveryDispatch
import ServiceShell.Proofs.Interior
/-!
The history of a dispatch as a tree. A dispatch that comes past the depth guard leaves the event
that announces it, then what happens inside of it, then its report; the dispatches that are made
inside of it do the same in their turn, and one that is refused leaves the note of that and nothing
else.
-/
namespace ServiceShell

/-- What makes a dispatch: the request of a caller, the composite whose child it is, the flow whose
step it is, or a task in whose place an errand or a stand-in runs. -/
inductive Link where
  | request
  | child
  | step
  | errand
  | standIn
deriving DecidableEq

namespace Link

def hops : Link → Nat
  | errand | standIn => 1
  | _ => 0

def call (outer : Call) : Link → Call
  | errand | standIn => outer.deeper
  | _ => outer.inner

inductive Joins (ready : Work) : Link → Work → Prop
  | child {child : Work} (scope : Context) : child ∈ ready.children →
    Joins ready .child (child.mapCore (·.mapContext (·.withScope scope)))
  | step {model : Option (List Procedure)} {core : Core} {signature : Signature} (id : Uuid) :
    ready.body = .task model [] → signature ∈ ready.core.fidelities.selects →
      Joins ready .step (Shell.stepUnit id core signature)
  | errand {model : Option (List Procedure)} {errand : Errand} {errands : List Errand}
    (context : Context) : ready.body = .task model (errand :: errands) →
      Joins ready .errand
        ⟨errand.core.mapContext (·.overlay context), .task errand.model errands⟩
  | standIn {model : Option (List Procedure)} {core : Core} (id : Uuid) (signature : Signature)
    (operation : Operation) : ready.body = .task model [] →
      Joins ready .standIn (Shell.standInUnit id core signature operation)

end Link

/-- A dispatch that was made: of a unit that was handed in, which then was ready or could not be
prepared, and how it ended. -/
structure Passage where
  call : Call
  work : Work
  entered : Except DispatchError Work
  ended : Dispatched

namespace Passage
variable {σ : Type}

def Occurs (shell : Shell σ) (passage : Passage) (events : List Event) : Prop :=
  ∃ world later, shell.supervise passage.call passage.work
    (shell.executeEntered passage.call passage.entered) world = ⟨passage.ended, later, events⟩

def Reports (passage : Passage) (entry : TraceEntry) : Prop :=
  ∃ now route,
    entry = TraceEntry.ofCore now passage.ended.work.core passage.ended.work.kind route ∧
      (route = .aborted ↔ ∃ error, passage.ended.result = .error error)

/-- A task ends with the error of the dispatch in its place: it logs just that error, and its data
are those that it started with. -/
def Relays (outer : Passage) (error : DispatchError) : Prop :=
  ∃ ready running, outer.entered = .ok ready ∧ Shell.Starts outer.call ready.core running ∧
    outer.ended.result = .error error ∧
    let core := outer.ended.work.core
    core.status = .failed ∧ core.exceptions = ready.core.exceptions ++ [.exception error.message] ∧
      core.context = running.context

structure Makes (outer : Passage) (link : Link) (inner : Passage) : Prop where
  call : inner.call = link.call outer.call
  entered : inner.entered = .ok inner.work
  joins : ∃ ready, outer.entered = .ok ready ∧ link.Joins ready inner.work
  relays : 0 < link.hops → ∀ error, inner.ended.result = .error error → outer.Relays error

end Passage

/-- A history as a tree: an event inside a dispatch, a dispatch that was refused, or one that was
made and reported, with what happened inside of it. -/
inductive Trail where
  | own (event : Event)
  | refused (link : Link) (passage : Passage) (error : DispatchError)
  | reported (link : Link) (passage : Passage) (inside : List Trail) (entry : TraceEntry)

namespace Trail

mutual
def events : Trail → List Event
  | own event => [event]
  | refused _ _ error => [.note (.refused error)]
  | reported _ passage inside entry =>
    .dispatched passage.call.depth passage.work :: (eventsOf inside ++ [.recorded entry])

def eventsOf : List Trail → List Event
  | [] => []
  | trail :: rest => trail.events ++ eventsOf rest
end

def made? : Trail → Option (Link × Passage)
  | own _ => none
  | refused link passage _ | reported link passage _ _ => some (link, passage)

def report? : Trail → Option TraceEntry
  | reported _ _ _ entry => some entry
  | _ => none

mutual
def nodes : Trail → List Trail
  | own _ => []
  | refused link passage error => [refused link passage error]
  | reported link passage inside entry => nodesOf inside ++ [reported link passage inside entry]

def nodesOf : List Trail → List Trail
  | [] => []
  | trail :: rest => trail.nodes ++ nodesOf rest
end

/-- From the dispatch at the root, another one is reached by handing work over so often. -/
inductive Reaches : Trail → Nat → Trail → Prop
  | refl (trail : Trail) : Reaches trail 0 trail
  | inside {link next : Link} {passage inner : Passage} {inside : List Trail} {entry : TraceEntry}
    {trail node : Trail} {hops : Nat} : trail ∈ inside → trail.made? = some (next, inner) →
      Reaches trail hops node → Reaches (reported link passage inside entry) (next.hops + hops) node

/-- The tree is that of dispatches that were made, and tells of every dispatch inside them. -/
inductive Faithful {σ : Type} (shell : Shell σ) : Trail → Prop
  | own {event : Event} : event.isBoundary = false → Faithful shell (own event)
  | refused {link : Link} {passage : Passage} {error : DispatchError} :
    shell.config.maxDelegationDepth < passage.call.depth →
      passage.Occurs shell [.note (.refused error)] →
        Faithful shell (refused link passage error)
  | reported {link : Link} {passage : Passage} {inside : List Trail} {entry : TraceEntry} :
    passage.call.depth ≤ shell.config.maxDelegationDepth →
      passage.Occurs shell (reported link passage inside entry).events →
        passage.Reports entry → (∀ trail ∈ inside, Faithful shell trail) →
          (∀ trail ∈ inside, ∀ next inner, trail.made? = some (next, inner) →
            passage.Makes next inner) →
            Faithful shell (reported link passage inside entry)

variable {σ : Type} {shell : Shell σ}

@[simp] theorem eventsOf_append (trails others : List Trail) :
    eventsOf (trails ++ others) = eventsOf trails ++ eventsOf others := by
  induction trails with
  | nil => rfl
  | cons trail rest ih => simp only [List.cons_append, eventsOf, ih, List.append_assoc]

@[simp] theorem eventsOf_own (events : List Event) : eventsOf (events.map own) = events := by
  induction events with
  | nil => rfl
  | cons event rest ih => simp only [List.map_cons, eventsOf, Trail.events, ih, List.cons_append,
      List.nil_append]

structure Of (shell : Shell σ) (link : Link) (passage : Passage) (trail : Trail) : Prop where
  faithful : trail.Faithful shell
  made : trail.made? = some (link, passage)

structure Inside (shell : Shell σ) (call : Call) (ready : Work) (relays : Passage → Prop)
    (trail : Trail) : Prop where
  faithful : trail.Faithful shell
  makes : ∀ link inner, trail.made? = some (link, inner) →
    inner.call = link.call call ∧ inner.entered = .ok inner.work ∧ link.Joins ready inner.work ∧
      (0 < link.hops → relays inner)

namespace Inside
variable {call : Call} {ready : Work} {relays : Passage → Prop} {trail : Trail}

theorem own {event : Event} (h : event.isBoundary = false) :
    (Trail.own event).Inside shell call ready relays where
  faithful := .own h
  makes := fun _ _ hmade => by cases hmade

theorem of {link : Link} {inner : Passage} (h : trail.Of shell link inner)
    (hcall : inner.call = link.call call) (hentered : inner.entered = .ok inner.work)
    (hjoins : link.Joins ready inner.work) (hrelays : 0 < link.hops → relays inner) :
    trail.Inside shell call ready relays where
  faithful := h.faithful
  makes := fun other passage hmade => by
    obtain ⟨rfl, rfl⟩ := Prod.mk.inj (Option.some.inj (h.made.symm.trans hmade))
    exact ⟨hcall, hentered, hjoins, hrelays⟩

theorem mono {weaker : Passage → Prop} (h : trail.Inside shell call ready relays)
    (hw : ∀ inner, relays inner → weaker inner) : trail.Inside shell call ready weaker where
  faithful := h.faithful
  makes := fun link inner hmade =>
    let ⟨hcall, hentered, hjoins, hrelays⟩ := h.makes link inner hmade
    ⟨hcall, hentered, hjoins, fun hhops => hw inner (hrelays hhops)⟩

end Inside
end Trail

namespace Run
variable {σ α β : Type} {x : Run σ α} {f : α → Run σ β}

def Tells (x : Run σ α) (post : α → List Trail → Prop) : Prop :=
  x.Ensures fun value events => ∃ trails, events = Trail.eventsOf trails ∧ post value trails

def TellsOf (good : Trail → Prop) (x : Run σ α) : Prop :=
  x.Tells fun _ trails => ∀ trail ∈ trails, good trail

namespace Tells
variable {post : α → List Trail → Prop}

theorem pure {value : α} (h : post value []) : (Pure.pure value : Run σ α).Tells post :=
  Ensures.pure ⟨[], rfl, h⟩

theorem mono {weaker : α → List Trail → Prop} (h : x.Tells post)
    (hw : ∀ value trails, post value trails → weaker value trails) : x.Tells weaker :=
  Ensures.mono h fun value _ ⟨trails, hevents, hpost⟩ => ⟨trails, hevents, hw value trails hpost⟩

theorem bind {post : β → List Trail → Prop} (h : x.Tells fun value trails =>
      (f value).Tells fun last later => post last (trails ++ later)) : (x >>= f).Tells post :=
  Ensures.bind (Ensures.mono h fun _ _ ⟨trails, hevents, hf⟩ =>
    Ensures.mono hf fun _ _ ⟨later, hlater, hpost⟩ =>
      ⟨trails ++ later, by rw [hevents, hlater, Trail.eventsOf_append], hpost⟩)

end Tells

namespace TellsOf
variable {good : Trail → Prop}

theorem pure (value : α) : (Pure.pure value : Run σ α).TellsOf good := Tells.pure (by simp)

theorem bind (h : x.TellsOf good) (hf : ∀ value, (f value).TellsOf good) :
    (x >>= f).TellsOf good :=
  Tells.bind (Tells.mono h fun value _ htrails => Tells.mono (hf value) fun _ _ hlater =>
    List.forall_mem_append.mpr ⟨htrails, hlater⟩)

theorem draw (source : σ → α × σ) : (Run.draw source).TellsOf good := fun _ => ⟨[], rfl, by simp⟩

end TellsOf
end Run

/-- A property of trees that no boundary is needed for passes to what is dispatched in sequence. -/
theorem Run.tellsOf_composes {σ : Type} {good : Trail → Prop}
    (hown : ∀ event : Event, event.isBoundary = false → good (.own event)) :
    Run.Composes fun _ (x : Run σ _) => x.TellsOf good where
  pure := .pure
  note n hn := fun _ => by
    refine ⟨[.own (.note n)], rfl, List.forall_mem_singleton.mpr (hown _ ?_)⟩
    cases n <;> first | rfl | exact absurd rfl (hn _)
  bind hx hf := hx.bind hf

end ServiceShell
